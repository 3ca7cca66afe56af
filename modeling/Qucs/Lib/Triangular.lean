/-
# Triangular systems

Matrices are functions of two numbers, looked at below `n`. The rows of a lower
(upper) triangular matrix end (begin) at the diagonal (`sum_lower`,
`sum_upper`). A system with a triangular matrix and no zero on the diagonal has
a solution (`exists_upper`); solving with the two factors of a product one after
the other solves with the product (`solve_mul`). Substitution writes the
solution cell by cell, forwards for a lower triangular matrix and backwards for
an upper one (`forward_solves`, `backward_solves`).
-/
import Qucs.Lib.InPlace

namespace Lib.Triangular

open Finset

open Finset (range Ico)
open InPlace

variable {K : Type*} {n : ℕ}

section Ring

variable [CommRing K]

variable {l : ℕ → ℕ → K} {i : ℕ}

theorem sum_lower (hl : ∀ k, i < k → l i k = 0) (hi : i < n) (y : ℕ → K) :
    ∑ k ∈ range n, l i k * y k = ∑ k ∈ range i, l i k * y k + l i i * y i := by
  rw [← sum_range_succ]
  refine (sum_subset (range_mono hi) fun k _ hk => ?_).symm
  rw [hl k (by simpa using hk), zero_mul]

variable {u : ℕ → ℕ → K}

theorem sum_upper {k : ℕ} (hu : ∀ j < k, u k j = 0) (hk : k < n) (x : ℕ → K) :
    ∑ j ∈ range n, u k j * x j = u k k * x k + ∑ j ∈ Ico (k + 1) n, u k j * x j := by
  have hleft : ∑ j ∈ range k, u k j * x j = 0 := by
    refine sum_eq_zero fun j hj => ?_
    rw [hu j (mem_range.mp hj), zero_mul]
  rw [← sum_range_add_sum_Ico _ hk.le, hleft, zero_add, sum_eq_sum_Ico_succ_bot hk]

theorem sum_column {j : ℕ} (hu : ∀ k, j < k → u k j = 0) (hj : j < n) (l : ℕ → K) :
    ∑ k ∈ range n, l k * u k j = ∑ k ∈ range j, l k * u k j + l j * u j j := by
  rw [← sum_range_succ]
  refine (sum_subset (range_mono hj) fun k _ hk => ?_).symm
  rw [hu k (by simpa using hk), mul_zero]

theorem solve_mul {x y b : ℕ → K} (hy : ∑ k ∈ range n, l i k * y k = b i)
    (hx : ∀ k < n, ∑ j ∈ range n, u k j * x j = y k) :
    ∑ j ∈ range n, (∑ k ∈ range n, l i k * u k j) * x j = b i := by
  rw [← hy]
  calc ∑ j ∈ range n, (∑ k ∈ range n, l i k * u k j) * x j
      = ∑ k ∈ range n, l i k * ∑ j ∈ range n, u k j * x j := by
        simp only [sum_mul, mul_sum, mul_assoc]
        exact sum_comm
    _ = ∑ k ∈ range n, l i k * y k := sum_congr rfl fun k hk => by rw [hx k (mem_range.mp hk)]

/-! ## Substitution

A round may read the cells that are written already, and the others as they were
at the beginning. -/

variable {κ : Type*} [DecidableEq κ] (pos : ℕ → κ) {val : ℕ → (κ → K) → K} {x : κ → K} {b : ℕ → K}

/-- **Forward substitution.** -/
theorem forward_solves (hl : ∀ i k, i < k → l i k = 0)
    (hpos : ∀ i < n, ∀ j < n, pos i = pos j → i = j)
    (hval : ∀ i < n, ∀ z, (∀ q, (∀ j < i, pos j ≠ q) → z q = x q) →
      l i i * val i z = b i - ∑ k ∈ range i, l i k * z (pos k))
    (hi : i < n) : ∑ k ∈ range n, l i k * sweep (List.range n) pos val x (pos k) = b i := by
  obtain ⟨z, hz, hdone, hother⟩ := sweep_range pos val x hpos hi
  have hsum : ∑ k ∈ range i, l i k * z (pos k) =
      ∑ k ∈ range i, l i k * sweep (List.range n) pos val x (pos k) :=
    sum_congr rfl fun k hk => by rw [hdone k (mem_range.mp hk)]
  rw [sum_lower (hl i) hi, hz, hval i hi z hother, hsum]
  ring

/-- **Backward substitution.** -/
theorem backward_solves (hu : ∀ i, ∀ j < i, u i j = 0)
    (hpos : ∀ i < n, ∀ j < n, pos i = pos j → i = j)
    (hval : ∀ i < n, ∀ z, (∀ q, (∀ j, i < j → j < n → pos j ≠ q) → z q = x q) →
      u i i * val i z = b i - ∑ j ∈ Ico (i + 1) n, u i j * z (pos j))
    (hi : i < n) : ∑ j ∈ range n, u i j * sweep (List.range n).reverse pos val x (pos j) = b i := by
  obtain ⟨z, hz, hdone, hother⟩ := sweep_reverse pos val x hpos hi
  have hsum : ∑ j ∈ Ico (i + 1) n, u i j * z (pos j) =
      ∑ j ∈ Ico (i + 1) n, u i j * sweep (List.range n).reverse pos val x (pos j) := by
    refine sum_congr rfl fun j hj => ?_
    obtain ⟨hij, hjn⟩ := mem_Ico.mp hj
    rw [hdone j hij hjn]
  rw [sum_upper (hu i) hi, hz, hval i hi z hother, hsum]
  ring

end Ring

theorem exists_upper [Field K] {u : ℕ → ℕ → K} (hu : ∀ k, ∀ j < k, u k j = 0)
    (hdiag : ∀ k < n, u k k ≠ 0) (y : ℕ → K) :
    ∃ x : ℕ → K, ∀ k < n, ∑ j ∈ range n, u k j * x j = y k :=
  ⟨sweep (List.range n).reverse id (fun i z => (y i - ∑ j ∈ Ico (i + 1) n, u i j * z j) / u i i) 0,
    fun _ hk => backward_solves id hu (fun _ _ _ _ h => h)
      (fun i hi _ _ => mul_div_cancel₀ _ (hdiag i hi)) hk⟩

end Lib.Triangular
