/-
# Loops that overwrite one cell per round

A vector or a matrix is a function from positions to entries. `sweep` runs
through a list of rounds; each round computes an entry from the cells as they
are then and writes it to the cell of the round. When no cell is written twice,
a round leaves behind what it computed, from final entries where an earlier
round has written and from initial ones elsewhere (`sweep_at`).

A loop that writes what does not depend on the cells fills a table (`foldl_write`).
Inner loops accumulate sums (`foldl_sub_range` and others).
-/
import Mathlib

namespace Lib.InPlace

open Function

open Finset (range Ico)

section Sweep

variable {ι κ α : Type*} [DecidableEq κ] {is : List ι} {pos : ι → κ} {val : ι → (κ → α) → α}
  {x : κ → α}

/-- One cell is computed and overwritten per round. -/
def sweep (is : List ι) (pos : ι → κ) (val : ι → (κ → α) → α) (x : κ → α) : κ → α :=
  is.foldl (fun x i => Function.update x (pos i) (val i x)) x

theorem sweep_of_ne {q : κ} (h : ∀ i ∈ is, pos i ≠ q) : sweep is pos val x q = x q := by
  induction is generalizing x with
  | nil => rfl
  | cons i is ih =>
    have hrest := ih (x := update x (pos i) (val i x)) fun j hj =>
      h j (List.mem_cons_of_mem _ hj)
    rw [update_of_ne (h i List.mem_cons_self).symm] at hrest
    exact hrest

/-- **What a round leaves behind**, if no cell is written twice. -/
theorem sweep_at (val : ι → (κ → α) → α) (x : κ → α) {done rest : List ι} {i : ι}
    (h : is = done ++ i :: rest) (hpos : (is.map pos).Nodup) :
    ∃ z, sweep is pos val x (pos i) = val i z ∧
      (∀ j ∈ done, z (pos j) = sweep is pos val x (pos j)) ∧
      ∀ q, (∀ j ∈ done, pos j ≠ q) → z q = x q := by
  have split : sweep is pos val x = sweep rest pos val
      (update (sweep done pos val x) (pos i) (val i (sweep done pos val x))) := by
    rw [h, sweep, List.foldl_append]
    rfl
  rw [h, List.map_append, List.map_cons, List.nodup_append, List.nodup_cons] at hpos
  obtain ⟨-, ⟨hi, -⟩, hdone⟩ := hpos
  refine ⟨sweep done pos val x, ?_, fun j hj => ?_, fun q hq => sweep_of_ne hq⟩
  · rw [split, sweep_of_ne, update_self]
    exact fun j hj heq => hi (heq ▸ List.mem_map_of_mem hj)
  · have hne := hdone (pos j) (List.mem_map_of_mem hj)
    have hlater : ∀ k ∈ rest, pos k ≠ pos j := fun k hk heq =>
      hne _ (List.mem_cons_of_mem _ (List.mem_map_of_mem hk)) heq.symm
    rw [split, sweep_of_ne hlater, update_of_ne (hne _ List.mem_cons_self)]

section Ordered

variable {r : ι → ι → Prop} (hr : ∀ i j, r i j → ¬r j i) (his : is.Pairwise r)
include hr his

theorem sweep_ordered (hpos : ∀ i ∈ is, ∀ j ∈ is, pos i = pos j → i = j) (val : ι → (κ → α) → α)
    (x : κ → α) {i : ι} (hi : i ∈ is) :
    ∃ z, sweep is pos val x (pos i) = val i z ∧
      (∀ j ∈ is, r j i → z (pos j) = sweep is pos val x (pos j)) ∧
      ∀ q, (∀ j ∈ is, r j i → pos j ≠ q) → z q = x q := by
  have hnodup : (is.map pos).Nodup := by
    refine List.Nodup.map_on hpos (his.imp fun hij => ?_)
    rintro rfl
    exact hr _ _ hij hij
  obtain ⟨done, rest, hlist⟩ := List.append_of_mem hi
  rw [hlist, List.pairwise_append, List.pairwise_cons] at his
  obtain ⟨-, ⟨hrest, -⟩, hbefore⟩ := his
  obtain ⟨z, hz, hdone, hout⟩ := sweep_at val x hlist hnodup
  refine ⟨z, hz, fun j hj hji => hdone j ?_, fun q hq => hout q fun j hj => ?_⟩
  · rw [hlist, List.mem_append, List.mem_cons] at hj
    rcases hj with hj | rfl | hj
    · exact hj
    · exact absurd hji (hr _ _ hji)
    · exact absurd hji (hr _ _ (hrest j hj))
  · exact hq j (hlist ▸ List.mem_append_left _ hj) (hbefore j hj i List.mem_cons_self)

end Ordered

variable {n : ℕ} (pos : ℕ → κ) (val : ℕ → (κ → α) → α) (x : κ → α)

theorem sweep_range' {m : ℕ}
    (hpos : ∀ i ∈ List.range' m n, ∀ j ∈ List.range' m n, pos i = pos j → i = j) {i : ℕ}
    (hm : m ≤ i) (hi : i < m + n) :
    ∃ z, sweep (List.range' m n) pos val x (pos i) = val i z ∧
      (∀ j, m ≤ j → j < i → z (pos j) = sweep (List.range' m n) pos val x (pos j)) ∧
      ∀ q, (∀ j, m ≤ j → j < i → pos j ≠ q) → z q = x q := by
  obtain ⟨z, hz, hdone, hout⟩ := sweep_ordered (fun _ _ => Nat.lt_asymm)
    (List.pairwise_lt_range' ..) hpos val x (List.mem_range'_1.mpr ⟨hm, hi⟩)
  exact ⟨z, hz, fun j hmj hj => hdone j (List.mem_range'_1.mpr ⟨hmj, hj.trans hi⟩) hj,
    fun q hq => hout q fun j hj => hq j (List.mem_range'_1.mp hj).1⟩

theorem sweep_range (hpos : ∀ i < n, ∀ j < n, pos i = pos j → i = j) {i : ℕ} (hi : i < n) :
    ∃ z, sweep (List.range n) pos val x (pos i) = val i z ∧
      (∀ j < i, z (pos j) = sweep (List.range n) pos val x (pos j)) ∧
      ∀ q, (∀ j < i, pos j ≠ q) → z q = x q := by
  obtain ⟨z, hz, hdone, hout⟩ := sweep_ordered (fun _ _ => Nat.lt_asymm)
    (List.pairwise_lt_range) (by simpa using hpos) val x (List.mem_range.mpr hi)
  exact ⟨z, hz, fun j hj => hdone j (List.mem_range.mpr (hj.trans hi)) hj,
    fun q hq => hout q fun j _ => hq j⟩

theorem sweep_reverse (hpos : ∀ i < n, ∀ j < n, pos i = pos j → i = j) {i : ℕ} (hi : i < n) :
    ∃ z, sweep (List.range n).reverse pos val x (pos i) = val i z ∧
      (∀ j, i < j → j < n → z (pos j) = sweep (List.range n).reverse pos val x (pos j)) ∧
      ∀ q, (∀ j, i < j → j < n → pos j ≠ q) → z q = x q := by
  obtain ⟨z, hz, hdone, hout⟩ := sweep_ordered (fun _ _ => Nat.lt_asymm)
    (List.pairwise_reverse.mpr (List.pairwise_lt_range))
    (by simpa using hpos) val x (by simpa using hi)
  exact ⟨z, hz, fun j hij hj => hdone j (by simpa using hj) hij,
    fun q hq => hout q fun j hj hij => hq j hij (by simpa using hj)⟩

/-- A multiple taken away, cell by cell: `f` from the cell of `c` and `f * w k`
from those of the later `k`. -/
theorem sweep_sub {α : Type*} [Ring α] {N c : ℕ} (hpos : ∀ i j, pos i = pos j → i = j)
    (x : κ → α) (f : α) (w : ℕ → (κ → α) → α)
    (hw : ∀ k z, (∀ q, (∀ j, pos j ≠ q) → z q = x q) → w k z = w k x) (hc : c < N) :
    ∃ y, y = sweep (List.range' (c + 1) (N - (c + 1))) pos (fun k x => x (pos k) - f * w k x)
        (Function.update x (pos c) (x (pos c) - f)) ∧
      y (pos c) = x (pos c) - f ∧
      (∀ k, c < k → k < N → y (pos k) = x (pos k) - f * w k x) ∧
      ∀ q, (∀ k, c ≤ k → k < N → pos k ≠ q) → y q = x q := by
  have hmem : ∀ k, k ∈ List.range' (c + 1) (N - (c + 1)) ↔ c < k ∧ k < N := by
    intro k
    rw [List.mem_range'_1]
    omega
  refine ⟨_, rfl, ?_, fun k hck hk => ?_, fun q hq => ?_⟩
  · rw [sweep_of_ne, update_self]
    intro k hk heq
    have := hpos k c heq
    have := (hmem k).mp hk
    omega
  · obtain ⟨z, hz, -, hother⟩ := sweep_range' pos (fun k x => x (pos k) - f * w k x)
      (update x (pos c) (x (pos c) - f)) (fun i _ j _ => hpos i j)
      (n := N - (c + 1)) (by omega : c + 1 ≤ k) (by omega)
    have hself : z (pos k) = x (pos k) := by
      rw [hother, update_of_ne]
      · exact fun heq => hck.ne' (hpos k c heq)
      · exact fun j _ hj heq => hj.ne (hpos j k heq)
    rw [hz, hself, hw k z]
    intro q hq
    rw [hother q fun j _ _ => hq j, update_of_ne (hq c).symm]
  · rw [sweep_of_ne fun k hk => hq k ((hmem k).mp hk).1.le ((hmem k).mp hk).2,
      update_of_ne (hq c le_rfl hc).symm]

end Sweep

/-- A loop whose rounds `c` write `w` to the cells with `k q = c` and `P q`. The state
of the loop holds the cells and what depends on the round only. -/
theorem foldl_write {κ α τ : Type*} {s : ℕ → (κ → α) → τ} {g : τ → ℕ → τ} {k : κ → ℕ}
    {P : κ → Prop} [DecidablePred P] {w : κ → α} {m : ℕ}
    (hg : ∀ c, m ≤ c → ∀ A, g (s c A) c = s (c + 1) fun q => if k q = c ∧ P q then w q else A q)
    (n : ℕ) (A : κ → α) : (List.range' m n).foldl g (s m A) =
      s (m + n) fun q => if (m ≤ k q ∧ k q < m + n) ∧ P q then w q else A q := by
  induction n with
  | zero => exact congrArg _ (funext fun q => (if_neg fun h => by omega).symm)
  | succ n ih =>
    rw [List.range'_1_concat, List.foldl_append, ih, List.foldl_cons, List.foldl_nil,
      hg _ (Nat.le_add_right m n)]
    refine congrArg (s (m + n + 1)) (funext fun q => ?_)
    by_cases hq : P q
    · simp only [hq, and_true]
      split_ifs <;> first | rfl | omega
    · simp only [hq, and_false, if_false]

section Sums

variable {α : Type*} [AddCommGroup α]

theorem foldl_add {ι : Type*} (l : List ι) (g : ι → α) (a : α) :
    l.foldl (fun f k => f + g k) a = a + (l.map g).sum := by
  induction l generalizing a with
  | nil => simp
  | cons k l ih => rw [List.foldl_cons, ih, List.map_cons, List.sum_cons, add_assoc]

theorem sum_map_range (n : ℕ) (g : ℕ → α) : ((List.range n).map g).sum = ∑ k ∈ range n, g k := rfl

theorem sum_map_range' (m n : ℕ) (g : ℕ → α) :
    ((List.range' m n).map g).sum = ∑ k ∈ Ico m (m + n), g k := by
  rw [Finset.sum_Ico_eq_sum_range, Nat.add_sub_cancel_left, ← sum_map_range,
    List.range'_eq_map_range, List.map_map]
  rfl

theorem Ico_add_sub (m n : ℕ) : Ico m (m + (n - m)) = Ico m n := by
  ext k
  simp only [Finset.mem_Ico]
  omega

/-- `for (k = m; k < m + n; k++) f += g (k)`. -/
theorem foldl_add_range' (m n : ℕ) (g : ℕ → α) (a : α) :
    (List.range' m n).foldl (fun f k => f + g k) a = a + ∑ k ∈ Ico m (m + n), g k := by
  rw [foldl_add, sum_map_range']

/-- `for (k = m; k < m + n; k++) f -= g (k)`. -/
theorem foldl_sub_range' (m n : ℕ) (g : ℕ → α) (a : α) :
    (List.range' m n).foldl (fun f k => f - g k) a = a - ∑ k ∈ Ico m (m + n), g k := by
  simp only [sub_eq_add_neg, ← Finset.sum_neg_distrib, foldl_add_range']

/-- `for (k = 0; k < n; k++) f -= g (k)`. -/
theorem foldl_sub_range (n : ℕ) (g : ℕ → α) (a : α) :
    (List.range n).foldl (fun f k => f - g k) a = a - ∑ k ∈ range n, g k := by
  rw [List.range_eq_range', foldl_sub_range', zero_add, Finset.range_eq_Ico]

theorem foldl_add_finRange {n : ℕ} (g : Fin n → α) (a : α) :
    (List.finRange n).foldl (fun f k => f + g k) a = a + ∑ k, g k := by
  rw [foldl_add, Fin.sum_univ_def]

end Sums

theorem foldl_mul_finRange {α : Type*} [CommMonoid α] {n : ℕ} (g : Fin n → α) (a : α) :
    (List.finRange n).foldl (fun f k => f * g k) a = a * ∏ k, g k := by
  have hlist : ∀ (l : List (Fin n)) a, l.foldl (fun f k => f * g k) a = a * (l.map g).prod := by
    intro l
    induction l with
    | nil => simp
    | cons k l ih =>
      intro a
      rw [List.foldl_cons, ih, List.map_cons, List.prod_cons, mul_assoc]
  rw [hlist, Fin.prod_univ_def]

end Lib.InPlace
