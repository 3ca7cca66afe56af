/-
# Cubic spline interpolation

`spline.cpp`. `construct` computes the coefficients of the pieces
from the points, `evaluate` looks up the piece and evaluates it with its first two
derivatives.

The arrays of `construct` are reused: `z` is `b`, and at the end `f1`, `f2` and `f3`
are `u`, `z` and `h`. A `Slot` is one index of the three of them, and every round
of a loop rewrites the slot of its index. What `new` returns is never read before
it is written; it is zero here.

In the periodic case the equations are solved in `b`, which is a *copy* of a part of
`z` (with one element less than is used). The solution stays in `b` and is dropped
with it, so `z` has the right-hand side when the coefficients are computed from it.
The rounds of the two loops that bring the argument of a periodic spline into its
period are counted, as nothing in the source bounds them.
-/
import Qucs.Lib.CubicSpline
import Qucs.Lib.InPlace

namespace Qucs.Interpolation

open Lib.InPlace

inductive Boundary where
  | natural
  | clamped
  | periodic
  deriving DecidableEq, Repr

/-- The points `x`, `f0` with numbers 0 to `n`, and the coefficients. -/
structure Spline (K : Type*) where
  n : ℕ
  x : ℕ → K
  f0 : ℕ → K
  f1 : ℕ → K
  f2 : ℕ → K
  f3 : ℕ → K
  d0 : K
  dn : K
  boundary : Boundary

/-- One index of the arrays `u`, `z` and `h`. -/
structure Slot (K : Type*) where
  u : K
  z : K
  h : K

variable {K : Type*} [Field K]

namespace Spline

variable (s : Spline K)

def width (i : ℕ) : K := s.x (i + 1) - s.x i

/-! ## Natural and clamped splines -/

def innerRhs (i : ℕ) : K :=
  3 * (s.f0 (i + 1) * s.width (i - 1) - s.f0 i * (s.width i + s.width (i - 1)) +
    s.f0 (i - 1) * s.width i) / (s.width (i - 1) * s.width i)

/-- The start of the elimination: `u` and `z` of the first knot. -/
def firstSlot : Slot K :=
  match s.boundary with
  | .clamped =>
    { u := s.width 0 / (2 * s.width 0)
      z := 3 * ((s.f0 1 - s.f0 0) / s.width 0 - s.d0) / (2 * s.width 0)
      h := s.width 0 }
  | _ => { u := 0, z := 0, h := s.width 0 }

def lastRhs : K :=
  match s.boundary with
  | .clamped => 3 * (s.dn - (s.f0 s.n - s.f0 (s.n - 1)) / s.width (s.n - 1))
  | _ => 0

def initialSlots : ℕ → Slot K := fun i =>
  if i = 0 then s.firstSlot
  else if i < s.n then { u := 0, z := s.innerRhs i, h := s.width i }
  else { u := 0, z := s.lastRhs, h := 0 }

def eliminate (i : ℕ) (m : ℕ → Slot K) : Slot K :=
  let p := 2 * ((m i).h + (m (i - 1)).h) - (m (i - 1)).h * (m (i - 1)).u
  { u := (m i).h / p, z := ((m i).z - (m (i - 1)).z * (m (i - 1)).h) / p, h := (m i).h }

/-- `z[n]` after the elimination. -/
def lastZ (m : ℕ → Slot K) : K :=
  match s.boundary with
  | .clamped =>
    ((m s.n).z - (m (s.n - 1)).z * (m (s.n - 1)).h) / ((m (s.n - 1)).h * (2 - (m (s.n - 1)).u))
  | _ => 0

def eliminated : ℕ → Slot K :=
  let m := sweep (List.range' 1 (s.n - 1)) id eliminate s.initialSlots
  Function.update m s.n { u := 0, z := s.lastZ m, h := 0 }

/-- The coefficients of a piece from `z` at its ends, in the place of `u`, `z`
and `h`. -/
def coefficients (i : ℕ) (m : ℕ → Slot K) (z : K) : Slot K where
  u := (s.f0 (i + 1) - s.f0 i) / (m i).h - (m i).h * ((m (i + 1)).z + 2 * z) / 3
  z := z
  h := ((m (i + 1)).z - z) / (3 * (m i).h)

def substituted : ℕ → Slot K :=
  sweep (List.range s.n).reverse id
    (fun i m => s.coefficients i m ((m i).z - (m i).u * (m (i + 1)).z)) s.eliminated

/-- Natural and clamped splines. -/
def constructFirst : Spline K :=
  let m := s.substituted
  -- the last slot is for extrapolation above
  let f1 := match s.boundary with
    | .clamped => s.dn
    | _ => (m (s.n - 1)).u + (s.x s.n - s.x (s.n - 1)) * (m (s.n - 1)).z
  let m := Function.update m s.n { u := f1, z := 0, h := 0 }
  { s with f1 := fun i => (m i).u, f2 := fun i => (m i).z, f3 := fun i => (m i).h }

/-! ## Periodic splines -/

/-- The right-hand side of the cyclic system, at knot 1 to `n`. -/
def cyclicRhs (i : ℕ) : K :=
  if i < s.n then
    3 * ((s.f0 (i + 1) - s.f0 i) / s.width i - (s.f0 i - s.f0 (i - 1)) / s.width (i - 1))
  else 3 * ((s.f0 1 - s.f0 i) / s.width 0 - (s.f0 i - s.f0 (i - 1)) / s.width (i - 1))

/-- `z` when the coefficients are computed from it. -/
def periodicZ : ℕ → K :=
  if s.n = 2 then
    let B := s.width 0 + s.width 1
    let A := 2 * B
    let b₀ := 3 * ((s.f0 2 - s.f0 1) / s.width 1 - (s.f0 1 - s.f0 0) / s.width 0)
    let b₁ := 3 * ((s.f0 1 - s.f0 2) / s.width 0 - (s.f0 2 - s.f0 1) / s.width 1)
    let det := 3 * B * B
    fun i => if i = 1 then (A * b₀ - B * b₁) / det else (-B * b₀ + A * b₁) / det
  else
    -- the system is solved in a copy, which is dropped
    fun i => if i = 0 then s.cyclicRhs s.n else s.cyclicRhs i

/-- Periodic splines. -/
def constructPeriodic : Spline K :=
  let m := sweep (List.range s.n).reverse id (fun i m => s.coefficients i m (m i).z)
    fun i => { u := 0, z := s.periodicZ i, h := s.width i }
  let m := Function.update m s.n (m 0)
  { s with f1 := fun i => (m i).u, f2 := fun i => (m i).z, f3 := fun i => (m i).h }

def construct : Spline K :=
  match s.boundary with
  | .natural | .clamped => s.constructFirst
  | .periodic => s.constructPeriodic

end Spline

/-! ## Evaluation -/

section Evaluate

variable [LinearOrder K]

/-- The first index from `first` on, of `len` many, with a value greater than the
given one. -/
def upperBound (x : ℕ → K) (first len : ℕ) (value : K) : ℕ :=
  if len = 0 then first
  else if value < x (first + len / 2) then upperBound x first (len / 2) value
  else upperBound x (first + len / 2 + 1) (len - len / 2 - 1) value
termination_by len
decreasing_by all_goals omega

/-- An argument with the value and two derivatives there. -/
structure Poly (K : Type*) where
  x : K
  f0 : K
  f1 : K
  f2 : K
  deriving DecidableEq, Repr

namespace Spline

variable (s : Spline K)

def lookup (t : K) : Poly K :=
  let here := upperBound s.x 0 (s.n + 1) t
  if here = 0 then
    let dx := t - s.x 0
    { x := t, f0 := s.f0 0 + dx * s.f1 0, f1 := s.f1 0, f2 := 0 }
  else
    let i := here - 1
    let dx := t - s.x i
    { x := t
      f0 := s.f0 i + dx * (s.f1 i + dx * (s.f2 i + dx * s.f3 i))
      f1 := s.f1 i + dx * (2 * s.f2 i + 3 * dx * s.f3 i)
      f2 := 2 * s.f2 i + 6 * dx * s.f3 i }

/-- `while (t > x[n]) t -= period`, with at most `fuel` tests. -/
def fromAbove : ℕ → K → Option K
  | 0, _ => none
  | fuel + 1, t => if s.x s.n < t then fromAbove fuel (t - (s.x s.n - s.x 0)) else some t

/-- `while (t < x[0]) t += period`. -/
def fromBelow : ℕ → K → Option K
  | 0, _ => none
  | fuel + 1, t => if t < s.x 0 then fromBelow fuel (t + (s.x s.n - s.x 0)) else some t

/-- The piece that `spline::evaluate` takes the value of. -/
def evaluate (fuel : ℕ) (t : K) : Option (Poly K) :=
  match s.boundary with
  | .periodic => do
      let t ← s.fromAbove fuel t
      let t ← s.fromBelow fuel t
      return s.lookup t
  | _ => some (s.lookup t)

end Spline

end Evaluate

end Qucs.Interpolation
