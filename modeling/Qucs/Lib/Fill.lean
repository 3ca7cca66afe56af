/-
# A loop that writes one entry per round

A table is a function from positions to entries. `fill` runs through a list
of rounds; each round computes an entry, which may fail, and writes it to its
position. When no two rounds write to the same position the result is read
off entry by entry (`fill_eq_some`), whatever the order of the rounds.

The second part is about accumulators: a loop `val += f (i)` under a
condition is a sum (`foldl_add_if`), and a sum over the items that a nested
loop collects is a nested sum.
-/
import Mathlib.Algebra.BigOperators.Fin

namespace Lib.Fill

open List

variable {ι κ K : Type} [DecidableEq κ]

/-- One entry is computed and written per round. -/
def fill (rounds : List ι) (pos : ι → κ) (val : ι → Option K) (table : κ → K) : Option (κ → K) :=
  rounds.foldlM (fun t i => (val i).map fun v => Function.update t (pos i) v) table

theorem fill_cons {i : ι} {rounds : List ι} {pos : ι → κ} {val : ι → Option K} {table : κ → K}
    {v : K} (h : val i = some v) :
    fill (i :: rounds) pos val table = fill rounds pos val (Function.update table (pos i) v) := by
  rw [fill, foldlM_cons, h]
  rfl

/-- Each round leaves its entry behind, and other positions are untouched. -/
theorem fill_eq_some {rounds : List ι} {pos : ι → κ} {val : ι → Option K} {w : ι → K}
    (hval : ∀ i ∈ rounds, val i = some (w i))
    (hpos : ∀ i ∈ rounds, ∀ j ∈ rounds, pos i = pos j → w i = w j) (table : κ → K) :
    ∃ table', fill rounds pos val table = some table' ∧
      (∀ i ∈ rounds, table' (pos i) = w i) ∧
      ∀ q, (∀ i ∈ rounds, pos i ≠ q) → table' q = table q := by
  induction rounds generalizing table with
  | nil => exact ⟨table, rfl, fun i hi => absurd hi not_mem_nil, fun _ _ => rfl⟩
  | cons i rounds ih =>
    have hi := hval i mem_cons_self
    obtain ⟨table', hfill, hin, hout⟩ := ih
      (fun j hj => hval j (mem_cons_of_mem _ hj))
      (fun j hj k hk => hpos j (mem_cons_of_mem _ hj) k (mem_cons_of_mem _ hk))
      (Function.update table (pos i) (w i))
    refine ⟨table', (fill_cons hi).trans hfill, ?_, ?_⟩
    · intro j hj
      cases mem_cons.mp hj with
      | inr hj => exact hin j hj
      | inl hj =>
        subst hj
        by_cases hex : ∃ k ∈ rounds, pos k = pos j
        · obtain ⟨k, hk, heq⟩ := hex
          rw [← heq, hin k hk]
          exact hpos k (mem_cons_of_mem _ hk) j mem_cons_self heq
        · rw [hout (pos j) fun k hk heq => hex ⟨k, hk, heq⟩, Function.update_self]
    · intro q hq
      rw [hout q fun k hk => hq k (mem_cons_of_mem _ hk)]
      exact Function.update_of_ne (hq i mem_cons_self).symm _ _

/-- The second table has the entries `w` at their positions, and those of the first
elsewhere. -/
structure Filled (n m : ℕ) (pos : ℕ × ℕ → κ) (w : ℕ → ℕ → K) (table table' : κ → K) : Prop where
  inside : ∀ i < n, ∀ j < m, table' (pos (i, j)) = w i j
  outside : ∀ q, (∀ i < n, ∀ j < m, pos (i, j) ≠ q) → table' q = table q

theorem fill_product {n m : Nat} {pos : Nat × Nat → κ} {val : Nat × Nat → Option K}
    {w : Nat → Nat → K} (hval : ∀ i < n, ∀ j < m, val (i, j) = some (w i j))
    (hpos : ∀ i j i' j', pos (i, j) = pos (i', j') → i = i' ∧ j = j') (table : κ → K) :
    ∃ table', fill (List.product (List.range n) (List.range m)) pos val table = some table' ∧
      Filled n m pos w table table' := by
  have hmem : ∀ i j, (i, j) ∈ product (range n) (range m) ↔ i < n ∧ j < m := by
    intro i j
    rw [pair_mem_product, mem_range, mem_range]
  have hval' : ∀ i ∈ product (range n) (range m), val i = some (w i.1 i.2) :=
    fun ⟨i, j⟩ hi => hval i ((hmem i j).mp hi).1 j ((hmem i j).mp hi).2
  obtain ⟨table', hfill, hin, hout⟩ := fill_eq_some hval' (fun i _ j _ h => by
    obtain ⟨h₁, h₂⟩ := hpos i.1 i.2 j.1 j.2 h
    rw [h₁, h₂]) table
  refine ⟨table', hfill, ?_, ?_⟩
  · intro i hi j hj
    exact hin (i, j) ((hmem i j).mpr ⟨hi, hj⟩)
  · intro q hq
    exact hout q fun ⟨i, j⟩ hi => hq i ((hmem i j).mp hi).1 j ((hmem i j).mp hi).2

theorem fill_range {n : Nat} {pos : Nat → κ} {val : Nat → Option K} (w : Nat → K)
    (hval : ∀ i < n, val i = some (w i)) (hpos : ∀ i j, pos i = pos j → i = j) (table : κ → K) :
    ∃ table', fill (List.range n) pos val table = some table' ∧
      (∀ i < n, table' (pos i) = w i) ∧ ∀ q, (∀ i < n, pos i ≠ q) → table' q = table q := by
  obtain ⟨table', hfill, hin, hout⟩ := fill_eq_some
    (fun i hi => hval i (mem_range.mp hi)) (fun i _ j _ h => by rw [hpos i j h]) table
  refine ⟨table', hfill, ?_, ?_⟩
  · intro i hi
    exact hin i (mem_range.mpr hi)
  · intro q hq
    exact hout q fun i hi => hq i (mem_range.mp hi)

variable [AddCommMonoid K]

theorem foldl_add_if (l : List ι) (p : ι → Prop) [DecidablePred p] (f : ι → K) (init : K) :
    l.foldl (fun val i => if p i then val + f i else val) init
      = init + (l.map fun i => if p i then f i else 0).sum := by
  induction l generalizing init with
  | nil => simp
  | cons i l ih =>
    rw [foldl_cons, ih, map_cons, sum_cons]
    by_cases h : p i
    · rw [if_pos h, if_pos h, add_assoc]
    · rw [if_neg h, if_neg h, zero_add]

theorem foldl_foldl_add_if {μ : Type} (l : List ι) (m : List μ) (p : ι → μ → Prop)
    [∀ i, DecidablePred (p i)] (f : ι → μ → K) (init : K) :
    l.foldl (fun val i => m.foldl (fun val j => if p i j then val + f i j else val) val) init
      = init + (l.map fun i => (m.map fun j => if p i j then f i j else 0).sum).sum := by
  induction l generalizing init with
  | nil => simp
  | cons i l ih => rw [foldl_cons, ih, foldl_add_if, map_cons, sum_cons, add_assoc]

theorem sum_filter_range (n : Nat) (p : Nat → Bool) (f : Nat → K) :
    (((List.range n).filter p).map f).sum = ∑ i ∈ Finset.range n, if p i then f i else 0 := by
  induction n with
  | zero => simp
  | succ n ih =>
    rw [range_succ, filter_append, map_append, sum_append, ih, Finset.sum_range_succ]
    congr 1
    cases h : p n <;> simp [h]

theorem sum_flatMap_finRange {μ : Type} {n : Nat} (g : Fin n → List μ) (f : μ → K) :
    (((List.finRange n).flatMap g).map f).sum = ∑ k : Fin n, ((g k).map f).sum := by
  rw [Fin.sum_univ_def, map_flatMap, flatMap_def, sum_flatten, map_map]
  rfl

/-- Two independent conditions can be tested in either order. -/
theorem sum_ite_swap {μ : Type} (s : Finset ι) (t : Finset μ) (p : ι → Prop) (q : μ → Prop)
    [DecidablePred p] [DecidablePred q] (f : ι → μ → K) :
    (∑ i ∈ s, if p i then ∑ j ∈ t, if q j then f i j else 0 else 0)
      = ∑ j ∈ t, if q j then ∑ i ∈ s, if p i then f i j else 0 else 0 := by
  simp only [← Finset.sum_filter]
  exact Finset.sum_comm

end Lib.Fill
