/-
# Loops over lists

A property of a loop over a list that speaks of the elements done so far
(`foldl_rule`). A loop whose body may fail to return, as a fold in `Option`: it
returns if the body always does, it does not if the body never does at one
element, and it changes nothing if no body does. A counted loop in `Option` has an
invariant that counts the rounds (`foldlM_finRange`).
-/
import Mathlib.Data.List.FinRange
import Mathlib.Data.List.Induction

namespace Lib.Fold

open List

/-- What holds before the loop and is kept by its body, for the elements done. -/
theorem foldl_rule {α β : Type*} {f : β → α → β} {b : β} {l : List α} {P : List α → β → Prop}
    (h : P [] b)
    (step : ∀ done a rest, l = done ++ a :: rest → P done (done.foldl f b) →
      P (done ++ [a]) (f (done.foldl f b) a)) : P l (l.foldl f b) := by
  have upTo : ∀ done rest, l = done ++ rest → P done (done.foldl f b) := by
    intro done
    induction done using reverseRecOn with
    | nil =>
      intro rest _
      exact h
    | append_singleton done a ih =>
      intro rest hl
      rw [append_assoc, singleton_append] at hl
      rw [foldl_append]
      exact step done a rest hl (ih _ hl)
  exact upTo l [] (append_nil l).symm

variable {α β : Type*} {f : β → α → Option β} {l : List α}

theorem foldlM_returns (hf : ∀ d ∈ l, ∀ b, ∃ r, f b d = some r) :
    ∀ b, ∃ r, l.foldlM f b = some r := by
  induction l with
  | nil =>
    intro b
    exact ⟨b, rfl⟩
  | cons d l ih =>
    intro b
    obtain ⟨r, hr⟩ := hf d mem_cons_self b
    rw [foldlM_cons, hr]
    exact ih (fun d' hd' => hf d' (mem_cons_of_mem _ hd')) r

theorem foldlM_none {d : α} (hd : d ∈ l) (hf : ∀ b, f b d = none) : ∀ b, l.foldlM f b = none := by
  induction l with
  | nil => cases hd
  | cons a l ih =>
    intro b
    rw [foldlM_cons]
    rcases mem_cons.mp hd with rfl | hd
    · rw [hf b]
      rfl
    · cases f b a with
      | none => rfl
      | some b' => exact ih hd b'

theorem foldlM_fixed {b : β} (h : ∀ a ∈ l, f b a = some b) : l.foldlM f b = some b := by
  induction l with
  | nil => rfl
  | cons a l ih =>
    rw [foldlM_cons, h a mem_cons_self]
    exact ih fun c hc => h c (mem_cons_of_mem a hc)

/-- A loop that adds up what `g` says of the elements. -/
theorem foldlM_add {α : Type*} {f : ℕ → α → Option ℕ} {g : α → Option ℕ}
    (hf : ∀ b a, f b a = (g a).map (b + ·)) : ∀ {l : List α} {b e : ℕ}, l.foldlM f b = some e →
      (e = 0 ↔ b = 0 ∧ ∀ a ∈ l, g a = some 0) := by
  intro l
  induction l with
  | nil =>
    rintro b e ⟨⟩
    simp
  | cons a l ih =>
    intro b e h
    rw [foldlM_cons, hf b a] at h
    cases ha : g a with
    | none => simp [ha] at h
    | some k =>
      rw [ha] at h
      rw [ih h, forall_mem_cons, ha, Option.some_inj, Nat.add_eq_zero_iff, and_assoc]

/-- A counted loop that may stop, by an invariant that counts the rounds. -/
theorem foldlM_finRange {β : Type*} {n : ℕ} {f : β → Fin n → Option β} {b : β} {P : ℕ → β → Prop}
    {Q : Prop} (h : P 0 b) (step : ∀ i : Fin n, ∀ s s', P i s → f s i = some s' → P (i + 1) s')
    (stop : ∀ i : Fin n, ∀ s, P i s → f s i = none → Q) :
    (∃ s, (List.finRange n).foldlM f b = some s ∧ P n s) ∨
      (List.finRange n).foldlM f b = none ∧ Q := by
  have fromRound : ∀ k i s, i + k = n → P i s →
      (∃ s', ((finRange n).drop i).foldlM f s = some s' ∧ P n s') ∨
        ((finRange n).drop i).foldlM f s = none ∧ Q := by
    intro k
    induction k with
    | zero =>
      intro i s hi hs
      obtain rfl : i = n := hi
      rw [drop_of_length_le (by rw [length_finRange])]
      exact .inl ⟨s, rfl, hs⟩
    | succ k ih =>
      intro i s hi hs
      have hlt : i < n := by omega
      rw [drop_eq_getElem_cons (by rwa [length_finRange]), getElem_finRange,
        foldlM_cons]
      cases hround : f s ⟨i, hlt⟩ with
      | none => exact .inr ⟨by simp [hround], stop ⟨i, hlt⟩ s hs hround⟩
      | some s' =>
        have := ih (i + 1) s' (by omega) (step ⟨i, hlt⟩ s s' hs hround)
        simpa [hround] using this
  simpa using fromRound n 0 b (Nat.zero_add n) h

end Lib.Fold
