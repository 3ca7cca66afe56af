/-
# AC analysis with noise

`acsolver.cpp`, the loop of `solve` over the frequencies and
`solve_noise`, on the equation system of `eqnsys.cpp` and the matrices of
`tmatrix.cpp`.

The noise voltages of all nodes come from one factorisation: that of the
transposed matrix, which is then solved with -1 at one node after the other.

What `createMatrix` and `createNoiseMatrix` find in the circuits at a frequency is
a `Point`. `convHelper` is CONV_None in this solver. `real` and `sqrt` are those of
the numbers at hand.
-/
import Qucs.Linear.Lu

namespace Qucs.Ac

open Linear
open Function (update)

section Vectors

variable {K : Type*}

/-- The entries below the diagonal change places with those above it. -/
def transpose (n : ℕ) (A : ℕ × ℕ → K) : ℕ × ℕ → K :=
  (List.range n).foldl (fun A r => (List.range r).foldl (fun A c =>
    let v := A (r, c)
    update (update A (r, c) (A (c, r))) (c, r) v) A) A

variable [Field K]

/-- A row vector times a matrix. -/
def mulMatrix (n : ℕ) (a : ℕ → K) (b : ℕ × ℕ → K) (c : ℕ) : K :=
  (List.range n).foldl (fun z r => z + a r * b (r, c)) 0

/-- The sum of the products, without a conjugation. -/
def scalar (n : ℕ) (a b : ℕ → K) : K := (List.range n).foldl (fun s i => s + a i * b i) 0

end Vectors

inductive Algo where
  | luDecomposition
  | luFactorizationCrout
  | luSubstitutionCrout

/-- What the circuits give at a frequency. -/
structure Point (K : Type*) where
  A : ℕ × ℕ → K
  z : ℕ → K
  C : ℕ × ℕ → K

/-- What the solver keeps from one frequency to the next. -/
structure Solver (K V : Type*) where
  eqns : EqnSys K V
  eqnAlgo : Algo
  updateMatrix : Bool
  A : ℕ × ℕ → K
  C : ℕ × ℕ → K
  x : ℕ → K
  z : ℕ → K
  xn : ℕ → V

section Solve

variable {K V : Type*} [Field K] [Field V] [LinearOrder V] (m : Magnitude K V)

/-- The solver as its constructor leaves it. -/
def Solver.fresh : Solver K V where
  eqns := EqnSys.fresh
  eqnAlgo := .luDecomposition
  updateMatrix := true
  A := fun _ => 0
  C := fun _ => 0
  x := fun _ => 0
  z := fun _ => 0
  xn := fun _ => 0

/-- The switch of `eqnsys::solve`. -/
def eqnsysSolve (algo : Algo) (s : EqnSys K V) : EqnSys K V :=
  match algo with
  | .luDecomposition => s.solveLuCrout m
  | .luFactorizationCrout => { s with factors := factorizeLuCrout m s.N s.factors.A }
  | .luSubstitutionCrout => { s with X := substituteLuCrout s.N s.factors s.B s.X }

namespace Solver

variable (n : ℕ)

/-- The matrix is made anew only if it is going to be passed on. -/
def createMatrix (p : Point K) (s : Solver K V) : Solver K V :=
  { s with A := if s.updateMatrix then p.A else s.A, z := p.z }

/-- The system solves in the vector and the matrix of the solver. -/
def runMNA (s : Solver K V) : Solver K V :=
  let eqns := eqnsysSolve m s.eqnAlgo
    (s.eqns.passEquationSys (if s.updateMatrix then some (n, s.A) else none) s.x s.z)
  { s with eqns := eqns, A := eqns.factors.A, x := eqns.X }

/-- One pass of `nasolver::solve_linear`. -/
def solveLinear (p : Point K) (s : Solver K V) : Solver K V :=
  runMNA m n (createMatrix p { s with updateMatrix := true })

variable [Star K] (real : K → V) (sqrt : V → V)

/-- The noise at one node, by the transimpedances from all nodes to it. -/
def noiseRound (s : Solver K V) (i : ℕ) : Solver K V :=
  let s := runMNA m n { s with z := update (fun _ => 0) i (-1) }
  let zn := s.x
  { s with
    xn := update s.xn i (sqrt (real (scalar n (mulMatrix n zn s.C) fun j => star (zn j)))) }

/-- The noise voltages of all nodes, `acsolver::solve_noise`. -/
def solveNoise (p : Point K) (s : Solver K V) : Solver K V :=
  let xsave := s.x
  let s := createMatrix p { s with C := p.C }
  let s := runMNA m n { s with A := transpose n s.A, eqnAlgo := .luFactorizationCrout }
  let s := { s with updateMatrix := false, eqnAlgo := .luSubstitutionCrout }
  let s := (List.range n).foldl (noiseRound m n real sqrt) s
  { s with x := xsave }

/-- One frequency, with noise. -/
def solvePoint (s : Solver K V) (p : Point K) : Solver K V :=
  solveNoise m n real sqrt p (solveLinear m n p { s with eqnAlgo := .luDecomposition })

/-- All frequencies; after each of them the results are saved. -/
def solve : Solver K V → List (Point K) → List ((ℕ → K) × (ℕ → V))
  | _, [] => []
  | s, p :: ps =>
    let s := solvePoint m n real sqrt s p
    (s.x, s.xn) :: solve s ps

end Solver

end Solve

end Qucs.Ac
