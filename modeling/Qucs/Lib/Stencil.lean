/-
# Formulas that are exact on polynomials

A stencil takes the values of a function at `n` nodes, each with a weight, and adds
them up. If it is right for the first `n` powers it is right for all polynomials of
a lower degree (`sum_eval_eq`). The nodes here are a point `t` and points before it,
in units of a step `δ`:

    t - δ · τ 0,  t - δ · τ 1,  ...

The sums of the powers of the `τ` with the weights then decide what the stencil
computes of a polynomial: its value at `t` (`sum_eval_of_value`), its derivative there
(`sum_eval_of_derivative`) or, from derivatives, what it has grown by since `t - δ`
(`sum_eval_of_increment`).
-/
import Mathlib

namespace Lib.Stencil

open Polynomial Finset

variable {K : Type*} [Field K] {n : ℕ} {τ a b : ℕ → K}

theorem sum_eval_eq (h : ∀ r < n, ∑ c ∈ range n, τ c ^ r * a c = b r) {p : K[X]}
    (hp : p.natDegree < n) :
    ∑ c ∈ range n, a c * p.eval (τ c) = ∑ r ∈ range n, p.coeff r * b r := by
  calc ∑ c ∈ range n, a c * p.eval (τ c)
      = ∑ c ∈ range n, ∑ r ∈ range n, p.coeff r * (τ c ^ r * a c) := by
        refine sum_congr rfl fun c _ => ?_
        rw [eval_eq_sum_range' hp, mul_sum]
        exact sum_congr rfl fun r _ => by ring
    _ = ∑ r ∈ range n, p.coeff r * ∑ c ∈ range n, τ c ^ r * a c := by
        rw [sum_comm]
        exact sum_congr rfl fun r _ => (mul_sum _ _ _).symm
    _ = ∑ r ∈ range n, p.coeff r * b r := sum_congr rfl fun r hr => by rw [h r (mem_range.mp hr)]

/-! ## Points before a point -/

variable (t δ : K) (p : K[X])

/-- A polynomial seen from `t` backwards in units of `δ`. -/
noncomputable def backwards : K[X] := p.comp (C t - C δ * X)

theorem eval_backwards (x : K) : (backwards t δ p).eval x = p.eval (t - δ * x) := by
  simp [backwards]

theorem natDegree_backwards_le : (backwards t δ p).natDegree ≤ p.natDegree := by
  have hline : (C t - C δ * X : K[X]).natDegree ≤ 1 := by compute_degree
  exact (natDegree_comp_le).trans ((Nat.mul_le_mul_left _ hline).trans (Nat.mul_one _).le)

theorem coeff_zero_backwards : (backwards t δ p).coeff 0 = p.eval t := by
  rw [coeff_zero_eq_eval_zero, eval_backwards, mul_zero, sub_zero]

theorem coeff_one_backwards : (backwards t δ p).coeff 1 = -δ * p.derivative.eval t := by
  have hderiv : (backwards t δ p).derivative.coeff 0 = (backwards t δ p).coeff 1 := by
    rw [coeff_derivative]
    simp
  rw [← hderiv, coeff_zero_eq_eval_zero, backwards, derivative_comp]
  simp

variable {t δ p}

theorem sum_eval_of_value (hp : p.natDegree < n)
    (h : ∀ r < n, ∑ c ∈ range n, τ c ^ r * a c = if r = 0 then 1 else 0) :
    ∑ c ∈ range n, a c * p.eval (t - δ * τ c) = p.eval t := by
  have hsum := sum_eval_eq h ((natDegree_backwards_le t δ p).trans_lt hp)
  simp only [eval_backwards] at hsum
  rw [hsum, sum_eq_single_of_mem 0 (mem_range.mpr (by omega)), coeff_zero_backwards]
  · simp
  · intro r _ hr
    rw [if_neg hr, mul_zero]

theorem sum_eval_of_derivative (hp : p.natDegree < n) (hn : 1 < n) (hδ : δ ≠ 0)
    (h : ∀ r < n, ∑ c ∈ range n, τ c ^ r * a c = if r = 1 then -1 / δ else 0) :
    ∑ c ∈ range n, a c * p.eval (t - δ * τ c) = p.derivative.eval t := by
  have hsum := sum_eval_eq h ((natDegree_backwards_le t δ p).trans_lt hp)
  simp only [eval_backwards] at hsum
  rw [hsum, sum_eq_single_of_mem 1 (mem_range.mpr hn), coeff_one_backwards, if_pos rfl]
  · field_simp
  · intro r _ hr
    rw [if_neg hr, mul_zero]

/-- The increment over a step, from derivatives. -/
theorem sum_eval_of_increment [CharZero K] (hn : 0 < n) (hp : p.natDegree ≤ n)
    (h : ∀ r < n, ∑ c ∈ range n, τ c ^ r * a c = 1 / (r + 1)) :
    δ * ∑ c ∈ range n, a c * p.derivative.eval (t - δ * τ c) = p.eval t - p.eval (t - δ) := by
  have hdegree := (natDegree_backwards_le t δ p).trans hp
  have hsum := sum_eval_eq h (p := (backwards t δ p).derivative)
    ((natDegree_derivative_le _).trans_lt (by omega))
  have hone := eval_eq_sum_range' (Nat.lt_succ_of_le hdegree) 1
  rw [sum_range_succ', coeff_zero_backwards, eval_backwards] at hone
  have hderivative : ∀ y, (backwards t δ p).derivative.eval y =
      -δ * p.derivative.eval (t - δ * y) := fun y => by simp [backwards, derivative_comp]
  have hcoeff : ∀ r, (backwards t δ p).derivative.coeff r * (1 / (r + 1)) =
      (backwards t δ p).coeff (r + 1) * 1 ^ (r + 1) := by
    intro r
    have hne : (r + 1 : K) ≠ 0 := Nat.cast_add_one_ne_zero r
    rw [coeff_derivative]
    field_simp
    simp
  simp only [hderivative, hcoeff, mul_left_comm _ (-δ)] at hsum
  rw [← mul_sum] at hsum
  simp only [mul_one] at hone
  linear_combination -hsum + hone

end Lib.Stencil
