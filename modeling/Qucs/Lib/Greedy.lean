/-
# A scheduler that moves the first ready item and starts over

A scheduler has two lists: the items it has placed, and the items still
pending. In one round it moves the first pending item that is ready, given
the placed ones, to the end of the placed list and starts over; it stops when
no pending item is ready. Readiness is any test on the placed list and the
item, and an item that is ready may cease to be when another one is placed.

* Round: one round
* Stuck: no pending item is ready
* Run: any number of rounds

A run is determined by its start (`Round.unique`), so every state on the way
leads to the final one (`Run.to_stuck`).
-/
import Mathlib.Logic.Relation
import Mathlib.Data.List.Basic

namespace Lib.Greedy

open Relation List

variable {α : Type} (ready : List α → α → Bool) (mark : α → α)

/-- One round: the first ready item of the pending list is moved. -/
inductive Round : List α × List α → List α × List α → Prop
  | move {placed before after : List α} {a : α} :
      (∀ b ∈ before, ready placed b = false) → ready placed a →
      Round (placed, before ++ a :: after) (placed ++ [mark a], before ++ after)

def Stuck (s : List α × List α) : Prop := ∀ a ∈ s.2, ready s.1 a = false

abbrev Run : List α × List α → List α × List α → Prop := ReflTransGen (Round ready mark)

variable {ready mark}

/-- The first item passing a test splits a list in one way. -/
theorem split_unique {p : α → Bool} {before after before' after' : List α} {a a' : α}
    (h : before ++ a :: after = before' ++ a' :: after') (hb : ∀ b ∈ before, p b = false)
    (ha : p a) (hb' : ∀ b ∈ before', p b = false) (ha' : p a') :
    before = before' ∧ a = a' ∧ after = after' := by
  induction before generalizing before' with
  | nil =>
    cases before' with
    | nil =>
      obtain ⟨rfl, rfl⟩ := cons.inj h
      exact ⟨rfl, rfl, rfl⟩
    | cons b bs =>
      obtain ⟨rfl, -⟩ := cons.inj h
      exact absurd (ha.symm.trans (hb' a mem_cons_self)) (by simp)
  | cons b bs ih =>
    cases before' with
    | nil =>
      obtain ⟨rfl, -⟩ := cons.inj h
      exact absurd (ha'.symm.trans (hb b mem_cons_self)) (by simp)
    | cons b' bs' =>
      obtain ⟨rfl, htail⟩ := cons.inj h
      obtain ⟨rfl, hrest⟩ := ih htail (fun x hx => hb x (mem_cons_of_mem _ hx))
        (fun x hx => hb' x (mem_cons_of_mem _ hx))
      exact ⟨rfl, hrest⟩

theorem Round.unique {s t u : List α × List α} (ht : Round ready mark s t)
    (hu : Round ready mark s u) : t = u := by
  generalize hs : s = s' at hu
  cases ht with
  | move hb ha =>
    cases hu with
    | move hb' ha' =>
      obtain ⟨rfl, hsplit⟩ := Prod.mk.inj hs
      obtain ⟨rfl, rfl, rfl⟩ := split_unique hsplit hb ha hb' ha'
      rfl

variable {s t : List α × List α}

theorem Stuck.no_round (hs : Stuck ready s) : ¬ Round ready mark s t := by
  intro h
  cases h with
  | move _ ha => exact absurd ((hs _ (by simp)).symm.trans ha) (by simp)

theorem Run.to_stuck {s t u : List α × List α} (ht : Run ready mark s t)
    (hu : Run ready mark s u) (hstuck : Stuck ready u) : Run ready mark t u := by
  have hunique : Relator.RightUnique (Round ready mark) := fun _ _ _ h h' => h.unique h'
  rcases ReflTransGen.total_of_right_unique hunique ht hu with h | h
  · exact h
  · rcases ReflTransGen.cases_head h with rfl | ⟨v, hv, -⟩
    · exact .refl
    · exact absurd hv hstuck.no_round

/-- The run rule: what a round preserves holds wherever the run gets to. -/
theorem Run.invariant {P : List α × List α → Prop}
    (hround : ∀ s t, Round ready mark s t → P s → P t)
    (h : Run ready mark s t) (hs : P s) : P t := by
  induction h with
  | refl => exact hs
  | tail _ hr ih => exact hround _ _ hr ih

/-- A round moves an item: nothing gets lost, nothing is added. -/
theorem Run.perm {κ : Type} (key : α → κ) (hkey : ∀ a, key (mark a) = key a)
    (h : Run ready mark s t) : ((t.1 ++ t.2).map key).Perm ((s.1 ++ s.2).map key) := by
  induction h with
  | refl => exact .refl _
  | tail _ hround ih =>
    refine List.Perm.trans ?_ ih
    cases hround with
    | @move placed before after a _ _ =>
      simp only [map_append, map_cons, hkey, append_assoc, singleton_append]
      exact List.Perm.append_left _ perm_middle.symm

variable (h : Run ready mark s t)
include h

theorem Run.placed_stays : s.1 <+: t.1 := by
  induction h with
  | refl => exact prefix_refl _
  | tail _ hround ih =>
    cases hround with
    | move _ _ => exact ih.trans (prefix_append _ _)

theorem Run.pending_sublist : t.2.Sublist s.2 := by
  induction h with
  | refl => exact .refl _
  | tail _ hround ih =>
    cases hround with
    | move _ _ => exact ((sublist_cons_self _ _).append_left _).trans ih

theorem Run.pending_subset : ∀ a ∈ t.2, a ∈ s.2 := fun _ ha => h.pending_sublist.subset ha

/-- What is pending and in the end is not, was moved in some round. -/
theorem Run.moved {a : α} (ha : a ∈ s.2) (hno : a ∉ t.2) :
    ∃ placed before after, Run ready mark s (placed, before ++ a :: after) ∧
      (∀ b ∈ before, ready placed b = false) ∧ ready placed a := by
  induction h with
  | refl => exact absurd ha hno
  | @tail t u hrun hround ih =>
    by_cases hmem : a ∈ t.2
    · cases hround with
      | @move placed before after b hb hready =>
        have heq : a = b := by
          rcases mem_append.mp hmem with h | h
          · exact absurd (mem_append_left _ h) hno
          · rcases mem_cons.mp h with h | h
            · exact h
            · exact absurd (mem_append_right _ h) hno
        subst heq
        exact ⟨placed, before, after, hrun, hb, hready⟩
    · exact ih hmem

end Lib.Greedy
