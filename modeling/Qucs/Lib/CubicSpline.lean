/-
# Cubic splines by their second derivatives

Between two knots a cubic spline is a cubic polynomial. Written around the left
knot, with `c i` for half of the second derivative at knot `i`, the piece

    y i + dx · (a + dx · (c i + dx · b))        dx = t - x i
    a = chord i - h i · (c (i+1) + 2 · c i) / 3
    b = (c (i+1) - c i) / (3 · h i)             h i = x (i+1) - x i

goes through both points and has the second derivatives `2 · c i` and
`2 · c (i+1)` at its ends, whatever the `c` are. The first derivatives of two
pieces agree at a knot iff the `c` there fulfil one linear equation
(`derivative_eq_iff`). So the pieces are a spline iff the equations of the inner
knots hold (`isSpline_piece_iff`).
-/
import Qucs.Lib.Numerals

namespace Lib.CubicSpline

open Polynomial

variable {K : Type*} [Field K]

noncomputable def cubic (x f₀ f₁ f₂ f₃ : K) : K[X] :=
  C f₀ + (X - C x) * (C f₁ + (X - C x) * (C f₂ + (X - C x) * C f₃))

section Cubic

variable (x f₀ f₁ f₂ f₃ t : K)

@[simp] theorem eval_cubic : (cubic x f₀ f₁ f₂ f₃).eval t =
    f₀ + (t - x) * (f₁ + (t - x) * (f₂ + (t - x) * f₃)) := by
  simp [cubic]

@[simp] theorem eval_derivative_cubic : (cubic x f₀ f₁ f₂ f₃).derivative.eval t =
    f₁ + (t - x) * (2 * f₂ + 3 * (t - x) * f₃) := by
  simp [cubic]
  ring

@[simp] theorem eval_derivative_derivative_cubic :
    (cubic x f₀ f₁ f₂ f₃).derivative.derivative.eval t = 2 * f₂ + 6 * (t - x) * f₃ := by
  simp [cubic]
  ring

theorem natDegree_cubic : (cubic x f₀ f₁ f₂ f₃).natDegree ≤ 3 := by
  unfold cubic
  compute_degree

end Cubic

/-- Polynomials between `n + 1` knots that are a cubic spline through the points. -/
structure IsSpline (n : ℕ) (x y : ℕ → K) (S : ℕ → K[X]) : Prop where
  degree : ∀ i < n, (S i).natDegree ≤ 3
  left : ∀ i < n, (S i).eval (x i) = y i
  right : ∀ i < n, (S i).eval (x (i + 1)) = y (i + 1)
  first : ∀ i, i + 1 < n →
    (S i).derivative.eval (x (i + 1)) = (S (i + 1)).derivative.eval (x (i + 1))
  second : ∀ i, i + 1 < n → (S i).derivative.derivative.eval (x (i + 1)) =
    (S (i + 1)).derivative.derivative.eval (x (i + 1))

theorem IsSpline.congr {n : ℕ} {x y : ℕ → K} {S S' : ℕ → K[X]} (h : IsSpline n x y S)
    (hS : ∀ i < n, S' i = S i) : IsSpline n x y S' := by
  constructor
  case degree => exact fun i hi => hS i hi ▸ h.degree i hi
  case left => exact fun i hi => hS i hi ▸ h.left i hi
  case right => exact fun i hi => hS i hi ▸ h.right i hi
  case first => exact fun i hi => hS i (by omega) ▸ hS (i + 1) hi ▸ h.first i hi
  case second => exact fun i hi => hS i (by omega) ▸ hS (i + 1) hi ▸ h.second i hi

/-! ## Pieces by second derivatives -/

variable (x y c : ℕ → K)

def chord (i : ℕ) : K := (y (i + 1) - y i) / (x (i + 1) - x i)

def incline (i : ℕ) : K := chord x y i - (x (i + 1) - x i) * (c (i + 1) + 2 * c i) / 3

/-- A sixth of the third derivative. -/
def bend (i : ℕ) : K := (c (i + 1) - c i) / (3 * (x (i + 1) - x i))

noncomputable def piece (i : ℕ) : K[X] := cubic (x i) (y i) (incline x y c i) (c i) (bend x c i)

variable {x y c} {i j : ℕ}

theorem piece_left : (piece x y c i).eval (x i) = y i := by simp [piece]

theorem derivative_left : (piece x y c i).derivative.eval (x i) = incline x y c i := by simp [piece]

theorem second_left : (piece x y c i).derivative.derivative.eval (x i) = 2 * c i := by simp [piece]

section Right

variable [CharZero K] (hi : x (i + 1) - x i ≠ 0)
include hi

theorem piece_right : (piece x y c i).eval (x (i + 1)) = y (i + 1) := by
  simp only [piece, eval_cubic, incline, bend, chord]
  field_simp
  ring

theorem derivative_right : (piece x y c i).derivative.eval (x (i + 1)) =
    chord x y i + (x (i + 1) - x i) * (2 * c (i + 1) + c i) / 3 := by
  simp only [piece, eval_derivative_cubic, incline, bend]
  field_simp
  ring

theorem second_right : (piece x y c i).derivative.derivative.eval (x (i + 1)) = 2 * c (i + 1) := by
  simp only [piece, eval_derivative_derivative_cubic, bend]
  field_simp
  ring

/-- **The equation of a knot**, where the piece `i` ends and the piece `j` starts. -/
theorem derivative_eq_iff (hc : c (i + 1) = c j) :
    (piece x y c i).derivative.eval (x (i + 1)) = (piece x y c j).derivative.eval (x j) ↔
      (x (i + 1) - x i) * c i + 2 * (x (i + 1) - x i + (x (j + 1) - x j)) * c j +
        (x (j + 1) - x j) * c (j + 1) = 3 * (chord x y j - chord x y i) := by
  rw [derivative_right hi, derivative_left, incline, hc]
  constructor
  · intro h
    field_simp at h
    linear_combination h
  · intro h
    field_simp
    linear_combination h

end Right

theorem isSpline_piece_iff [CharZero K] {n : ℕ} (hx : ∀ i < n, x (i + 1) - x i ≠ 0) :
    IsSpline n x y (piece x y c) ↔ ∀ i, i + 1 < n →
      (x (i + 1) - x i) * c i + 2 * (x (i + 1) - x i + (x (i + 2) - x (i + 1))) * c (i + 1) +
        (x (i + 2) - x (i + 1)) * c (i + 2) = 3 * (chord x y (i + 1) - chord x y i) := by
  constructor
  · intro h i hi
    exact (derivative_eq_iff (hx i (by omega)) rfl).mp (h.first i hi)
  · intro h
    constructor
    case degree => exact fun i _ => natDegree_cubic ..
    case left => exact fun i _ => piece_left
    case right => exact fun i hi => piece_right (hx i hi)
    case first => exact fun i hi => (derivative_eq_iff (hx i (by omega)) rfl).mpr (h i hi)
    case second =>
      intro i hi
      rw [second_right (hx i (by omega)), second_left]

end Lib.CubicSpline
