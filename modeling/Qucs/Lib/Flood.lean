/-
# Filling blanks from a worklist

A map gives every vertex of a graph a value, and some vertices are blank. A
worklist fills them: the vertex in front is taken off, its blank neighbours get a
value and go to the end of the list. With as much fuel as there are entries and
blanks the list runs empty, and then (`Flooded`)

    what was not blank stays,
    what is filled has the value and is reached from the list,
    next to what was on the list or is filled nothing is blank.

So a set of vertices without blanks next to them is closed (`closed_of_full`).
-/
import Mathlib.Logic.Relation
import Mathlib.Data.List.Basic

namespace Lib.Flood

open Relation List Function

variable {N V : Type*}

/-- What a flood with the value `x` does. -/
structure Flooded (adj : N → N → Prop) (blank x : V) (source : N → Prop) (f f' : N → V) :
    Prop where
  kept : ∀ n, f n ≠ blank → f' n = f n
  filled : ∀ n, f' n ≠ f n → f' n = x ∧ ∃ p, source p ∧ ReflTransGen adj p n
  full : ∀ p, source p ∨ f' p ≠ f p → ∀ q, adj p q → f' q ≠ blank

/-- Where nothing is blank next to what is not, a line is filled or blank as a
whole. -/
theorem closed_of_full {adj : N → N → Prop} {blank : V} {f : N → V}
    (h : ∀ p, f p ≠ blank → ∀ q, adj p q → f q ≠ blank) {a b : N} (hab : ReflTransGen adj a b)
    (ha : f a ≠ blank) : f b ≠ blank := by
  induction hab with
  | refl => exact ha
  | tail _ hbc ih => exact h _ ih _ hbc

variable [DecidableEq N] [DecidableEq V] (blank x : V) (neighbours : N → List N)

def fill (s : (N → V) × List N) (q : N) : (N → V) × List N :=
  if s.1 q = blank then (Function.update s.1 q x, s.2 ++ [q]) else s

def flood : ℕ → List N → (N → V) → N → V
  | 0, _, f => f
  | _ + 1, [], f => f
  | fuel + 1, p :: queue, f =>
    let (f, queue) := (neighbours p).foldl (fill blank x) (f, queue)
    flood fuel queue f

def blanks (vertices : List N) (f : N → V) : ℕ := vertices.countP fun n => f n = blank

variable {blank x}

theorem foldl_fill (hx : x ≠ blank) (qs : List N) (f : N → V) (queue : List N) :
    ∃ new, (qs.foldl (fill blank x) (f, queue)).2 = queue ++ new ∧
      (∀ n, f n ≠ blank → (qs.foldl (fill blank x) (f, queue)).1 n = f n) ∧
      (∀ n, (qs.foldl (fill blank x) (f, queue)).1 n ≠ f n →
        (qs.foldl (fill blank x) (f, queue)).1 n = x ∧ n ∈ new) ∧
      (∀ n ∈ new, n ∈ qs) ∧ ∀ q ∈ qs, (qs.foldl (fill blank x) (f, queue)).1 q ≠ blank := by
  induction qs generalizing f queue with
  | nil => exact ⟨[], by simp⟩
  | cons q qs ih =>
    rw [foldl_cons, fill]
    split
    case isTrue hq =>
      obtain ⟨new, hqueue, hkept, hfilled, hnew, hfull⟩ := ih (update f q x) (queue ++ [q])
      have hqx : (qs.foldl (fill blank x) (update f q x, queue ++ [q])).1 q = x := by
        rw [hkept q (by simpa using hx), update_self]
      refine ⟨q :: new, by simpa using hqueue, fun n hn => ?_, fun n hn => ?_, ?_, ?_⟩
      · have hnq : n ≠ q := by
          rintro rfl
          exact hn hq
        rw [hkept n (by rwa [update_of_ne hnq]), update_of_ne hnq]
      · by_cases hnq : n = q
        · rw [hnq]
          exact ⟨hqx, mem_cons_self⟩
        · obtain ⟨hvalue, hmem⟩ := hfilled n (by rwa [update_of_ne hnq])
          exact ⟨hvalue, mem_cons_of_mem _ hmem⟩
      · exact forall_mem_cons.mpr ⟨mem_cons_self, fun n hn => mem_cons_of_mem _ (hnew n hn)⟩
      · exact forall_mem_cons.mpr ⟨by rwa [hqx], hfull⟩
    case isFalse hq =>
      obtain ⟨new, hqueue, hkept, hfilled, hnew, hfull⟩ := ih f queue
      refine ⟨new, hqueue, hkept, hfilled, fun n hn => mem_cons_of_mem _ (hnew n hn), ?_⟩
      exact forall_mem_cons.mpr ⟨by rwa [hkept q hq], hfull⟩

theorem blanks_update_lt (hx : x ≠ blank) {vertices : List N} {q : N} (hq : q ∈ vertices)
    {f : N → V} (hblank : f q = blank) :
    blanks blank vertices (Function.update f q x) < blanks blank vertices f := by
  obtain ⟨before, after, rfl⟩ := append_of_mem hq
  have hle (ns : List N) : ns.countP (fun n => update f q x n = blank) ≤
      ns.countP fun n => f n = blank := by
    refine countP_mono_left fun n _ hn => ?_
    by_cases hnq : n = q
    · simpa [hnq] using hblank
    · simpa [update_of_ne hnq] using hn
  have hbefore := hle before
  have hafter := hle after
  simp only [blanks, countP_append, countP_cons, update_self, hx, hblank,
    decide_false, decide_true, Bool.false_eq_true, if_true, if_false]
  omega

/-- A blank less for every entry more. -/
theorem length_foldl_fill (hx : x ≠ blank) {vertices qs : List N} (hqs : ∀ q ∈ qs, q ∈ vertices)
    (f : N → V) (queue : List N) :
    (qs.foldl (fill blank x) (f, queue)).2.length +
      blanks blank vertices (qs.foldl (fill blank x) (f, queue)).1 ≤
        queue.length + blanks blank vertices f := by
  induction qs generalizing f queue with
  | nil => exact Nat.le_refl _
  | cons q qs ih =>
    obtain ⟨hq, hqs⟩ := forall_mem_cons.mp hqs
    rw [foldl_cons, fill]
    split
    case isTrue hblank =>
      have hlt := blanks_update_lt hx hq (f := f) hblank
      refine Nat.le_trans (ih hqs (update f q x) (queue ++ [q])) ?_
      rw [length_append, length_singleton]
      omega
    case isFalse => exact ih hqs f queue

/-- **The flood**, with enough fuel. -/
theorem flooded_flood (hx : x ≠ blank) {vertices : List N}
    (hvertices : ∀ p, ∀ q ∈ neighbours p, q ∈ vertices) (fuel : ℕ) (queue : List N) {f : N → V}
    (hfuel : queue.length + blanks blank vertices f ≤ fuel) :
    Flooded (fun p q => q ∈ neighbours p) blank x (· ∈ queue) f
      (flood blank x neighbours fuel queue f) := by
  induction fuel generalizing queue f with
  | zero =>
    obtain rfl : queue = [] := eq_nil_of_length_eq_zero (by omega)
    exact ⟨fun n _ => rfl, fun n hn => absurd rfl hn, fun p hp => by simp [flood] at hp⟩
  | succ fuel ih =>
    cases queue with
    | nil => exact ⟨fun n _ => rfl, fun n hn => absurd rfl hn, fun p hp => by simp [flood] at hp⟩
    | cons p queue =>
      obtain ⟨new, hqueue, hkept, hfilled, hnew, hfull⟩ := foldl_fill hx (neighbours p) f queue
      have hlength := length_foldl_fill hx (hvertices p) f queue
      rw [flood]
      generalize (neighbours p).foldl (fill blank x) (f, queue) = s at *
      obtain ⟨g, queue'⟩ := s
      dsimp only at *
      subst hqueue
      have h := ih (queue ++ new) (f := g) (by
        rw [length_cons] at hfuel
        omega)
      have hkept' {n : N} (hn : g n ≠ blank) :
          flood blank x neighbours fuel (queue ++ new) g n = g n := h.kept n hn
      constructor
      case kept =>
        intro n hn
        rw [hkept' (by rwa [hkept n hn]), hkept n hn]
      case filled =>
        intro n hn
        by_cases hg : g n = f n
        · obtain ⟨hvalue, p', hp', hreach⟩ := h.filled n (by rwa [hg])
          refine ⟨hvalue, ?_⟩
          rcases mem_append.mp hp' with hp' | hp'
          · exact ⟨p', mem_cons_of_mem _ hp', hreach⟩
          · exact ⟨p, mem_cons_self, .head (hnew p' hp') hreach⟩
        · obtain ⟨hvalue, hmem⟩ := hfilled n hg
          rw [hkept' (by rwa [hvalue])]
          exact ⟨hvalue, p, mem_cons_self, .single (hnew n hmem)⟩
      case full =>
        intro p' hp'
        by_cases hpp : p' = p
        · intro q hq
          rw [hpp] at hq
          rw [hkept' (hfull q hq)]
          exact hfull q hq
        · refine h.full p' ?_
          rcases hp' with hp' | hp'
          · exact .inl (mem_append_left _ ((mem_cons.mp hp').resolve_left hpp))
          · by_cases hg : g p' = f p'
            · exact .inr (by rwa [hg])
            · exact .inl (mem_append_right _ (hfilled p' hg).2)

end Lib.Flood
