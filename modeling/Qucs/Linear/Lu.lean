/-
# Factorisation into triangles and substitution

`eqnsys.cpp`, the two LU algorithms. The matrix is overwritten
column by column; rows are exchanged as pivots are found, and the exchanges are
remembered in a table that the substitution reads the right-hand side through.

* nPvt, rMap: `Factors.nPvt`, `Factors.rMap`
* A_(r, c): `A (r, c)`

The two algorithms differ in the triangle that has ones on its diagonal
(`Ones`): the other one is divided by. `nr_type_t` is any field with a
magnitude that is positive exactly off zero; NR_TINY is whatever tiny number the
precision of the build gives. An exception does not end the factorisation, its
data are collected.
-/
import Qucs.Lib.InPlace

namespace Qucs.Linear

open Lib.InPlace
open List (range range')

/-- What the factorisation needs of numbers. -/
structure Magnitude (K V : Type*) [Field K] [Field V] [LinearOrder V] where
  abs : K → V
  abs_pos : ∀ x, 0 < abs x ↔ x ≠ 0
  tiny : V
  tiny_pos : 0 < tiny
  /-- NR_TINY as an entry of the matrix. -/
  resistance : K

/-- The triangle with ones on its diagonal: U in Crout's definition, L in
Doolittle's. -/
inductive Ones where
  | crout
  | doolittle

section Factorize

variable {K V : Type*} [Field K] [Field V] [LinearOrder V]

/-- Division by an entry on the diagonal of L. -/
def Ones.byLower : Ones → K → K → K
  | .crout, f, d => f / d
  | .doolittle, f, _ => f

/-- Division by an entry on the diagonal of U. -/
def Ones.byUpper : Ones → K → K → K
  | .crout, f, _ => f
  | .doolittle, f, d => f / d

/-- What the factorisation writes. -/
structure Factors (K V : Type*) where
  A : ℕ × ℕ → K
  rMap : ℕ → ℕ
  nPvt : ℕ → V
  exceptions : List ℕ

variable (m : Magnitude K V) (N : ℕ)

/-- The largest magnitude in a row. -/
def rowMax (A : ℕ × ℕ → K) (r : ℕ) : V :=
  (range N).foldl (fun max c => if m.abs (A (r, c)) > max then m.abs (A (r, c)) else max) 0

/-- Initializes the pivot exchange table. -/
def exchangeTable (A : ℕ × ℕ → K) : Factors K V where
  A := A
  rMap := id
  nPvt r := 1 / (if rowMax m N A r ≤ 0 then m.tiny else rowMax m N A r)
  exceptions := []

/-- `f = A_(r, c); for (k = 0; k < n; k++) f -= A_(r, k) * A_(k, c)`. -/
def remainder (A : ℕ × ℕ → K) (r c n : ℕ) : K :=
  (range n).foldl (fun f k => f - A (r, k) * A (k, c)) (A (r, c))

/-- Upper matrix entries of a column. -/
def upperEntries (ones : Ones) (c : ℕ) (A : ℕ × ℕ → K) : ℕ × ℕ → K :=
  sweep (range c) (fun r => (r, c)) (fun r A => ones.byLower (remainder A r c r) (A (r, r))) A

/-- The matrix and the pivot while the lower entries are computed. -/
structure Search (K V : Type*) where
  A : ℕ × ℕ → K
  maxPivot : V
  pivot : ℕ

def lowerEntry (nPvt : ℕ → V) (c : ℕ) (s : Search K V) (r : ℕ) : Search K V :=
  let f := remainder s.A r c c
  let d := nPvt r * m.abs f
  { A := Function.update s.A (r, c) f
    maxPivot := if d > s.maxPivot then d else s.maxPivot
    pivot := if d > s.maxPivot then r else s.pivot }

/-- Lower matrix entries of a column, and its pivot. -/
def lowerEntries (nPvt : ℕ → V) (c : ℕ) (A : ℕ × ℕ → K) : Search K V :=
  (range' c (N - c)).foldl (lowerEntry m nPvt c) ⟨A, 0, c⟩

/-- The resistance to ground that stands in for a pivot. -/
def virtualRes (c : ℕ) (s : Factors K V) : Factors K V :=
  { s with A := Function.update s.A (c, c) m.resistance, exceptions := s.exceptions ++ [s.rMap c] }

/-- Matrix rows are swapped, with the table. -/
def swapRows (r₁ r₂ : ℕ) (s : Factors K V) : Factors K V :=
  { s with
    A := fun q => s.A (Equiv.swap r₁ r₂ q.1, q.2)
    rMap := s.rMap ∘ Equiv.swap r₁ r₂
    nPvt := s.nPvt ∘ Equiv.swap r₁ r₂ }

omit [Field K] [Field V] [LinearOrder V] in
theorem swapRows_self (c : ℕ) (s : Factors K V) : swapRows c c s = s := by simp [swapRows]

/-- Doolittle's L is divided by the pivot at the end. -/
def divideByPivot (c : ℕ) : Ones → (ℕ × ℕ → K) → ℕ × ℕ → K
  | .crout, A => A
  | .doolittle, A =>
    if c < N - 1 then
      let f := 1 / A (c, c)
      sweep (range' (c + 1) (N - (c + 1))) (fun r => (r, c)) (fun r A => A (r, c) * f) A
    else A

def factorizeColumn (ones : Ones) (s : Factors K V) (c : ℕ) : Factors K V :=
  let low := lowerEntries m N s.nPvt c (upperEntries ones c s.A)
  let s := { s with A := low.A }
  let s := if low.maxPivot ≤ 0 then virtualRes m c s else s
  let s := if c ≠ low.pivot then swapRows c low.pivot s else s
  { s with A := divideByPivot N c ones s.A }

def factorizeLu (ones : Ones) (A : ℕ × ℕ → K) : Factors K V :=
  (range N).foldl (factorizeColumn m N ones) (exchangeTable m N A)

/-- `factorize_lu_crout`. -/
def factorizeLuCrout : (ℕ × ℕ → K) → Factors K V := factorizeLu m N .crout

/-- `factorize_lu_doolittle`. -/
def factorizeLuDoolittle : (ℕ × ℕ → K) → Factors K V := factorizeLu m N .doolittle

/-- Forward substitution through the table, then backward substitution. -/
def substituteLu (ones : Ones) (s : Factors K V) (B X : ℕ → K) : ℕ → K :=
  let X := sweep (range N) id
    (fun i X => ones.byLower ((range i).foldl (fun f c => f - s.A (i, c) * X c) (B (s.rMap i)))
      (s.A (i, i))) X
  sweep (range N).reverse id
    (fun i X => ones.byUpper
      ((range' (i + 1) (N - (i + 1))).foldl (fun f c => f - s.A (i, c) * X c) (X i))
      (s.A (i, i))) X

/-- `substitute_lu_crout`. -/
def substituteLuCrout : Factors K V → (ℕ → K) → (ℕ → K) → ℕ → K := substituteLu N .crout

/-- `substitute_lu_doolittle`. -/
def substituteLuDoolittle : Factors K V → (ℕ → K) → (ℕ → K) → ℕ → K := substituteLu N .doolittle

end Factorize

/-! ## Square matrices

The positions of the class and those of a matrix of a fixed size. -/

section Square

variable {K : Type*} [Field K] {n : ℕ}

variable (A : Matrix (Fin n) (Fin n) K)

def cells (q : ℕ × ℕ) : K :=
  if h : q.1 < n ∧ q.2 < n then A ⟨q.1, h.1⟩ ⟨q.2, h.2⟩ else 0

def square (n : ℕ) (A : ℕ × ℕ → K) : Matrix (Fin n) (Fin n) K := Matrix.of fun i j => A (i, j)

def entries (b : Fin n → K) (i : ℕ) : K := if h : i < n then b ⟨i, h⟩ else 0

theorem cells_apply (i j : Fin n) : cells A (i, j) = A i j := by simp [cells]

theorem entries_apply (b : Fin n → K) (i : Fin n) : entries b i = b i := by simp [entries]

theorem sum_cells (v : ℕ → K) (i : Fin n) :
    ∑ j ∈ Finset.range n, cells A (i, j) * v j = A.mulVec (fun j => v j) i := by
  rw [Finset.sum_range]
  exact Finset.sum_congr rfl fun j _ => by rw [cells_apply]

/-- No vector but zero is mapped to zero. -/
def Nonsingular (N : ℕ) (A : ℕ × ℕ → K) : Prop :=
  ∀ v : ℕ → K, (∀ i < N, ∑ j ∈ Finset.range N, A (i, j) * v j = 0) → ∀ j < N, v j = 0

theorem nonsingular_cells {A : Matrix (Fin n) (Fin n) K} (hA : A.det ≠ 0) :
    Nonsingular n (cells A) := by
  intro v hv j hj
  have hzero : A.mulVec (fun j => v j) = 0 := by
    funext i
    rw [← sum_cells]
    exact hv i i.isLt
  exact congrFun (Matrix.eq_zero_of_mulVec_eq_zero hA hzero) ⟨j, hj⟩

end Square

/-! ## The equation system -/

/-- What the class keeps between two calls. -/
structure EqnSys (K V : Type*) where
  N : ℕ
  factors : Factors K V
  B : ℕ → K
  X : ℕ → K
  update : Bool

namespace EqnSys

variable {K V : Type*} [Field K] [Field V] [LinearOrder V] (m : Magnitude K V)

def fresh : EqnSys K V where
  N := 0
  factors := ⟨0, id, 0, []⟩
  B := 0
  X := 0
  update := true

/-- A new matrix asks for a new factorisation; without one the old stays. -/
def passEquationSys (s : EqnSys K V) (nA : Option (ℕ × (ℕ × ℕ → K))) (refX nB : ℕ → K) :
    EqnSys K V :=
  match nA with
  | some (cols, A) =>
    { s with N := cols, factors := { s.factors with A := A }, B := nB, X := refX, update := true }
  | none => { s with B := nB, X := refX, update := false }

/-- The decomposition is skipped unless there is a new matrix. -/
def solveWith (factorize : ℕ → (ℕ × ℕ → K) → Factors K V)
    (substitute : ℕ → Factors K V → (ℕ → K) → (ℕ → K) → ℕ → K) (s : EqnSys K V) : EqnSys K V :=
  let factors := if s.update then factorize s.N s.factors.A else s.factors
  { s with factors := factors, X := substitute s.N factors s.B s.X }

/-- `solve_lu_crout`. -/
def solveLuCrout : EqnSys K V → EqnSys K V := solveWith (factorizeLuCrout m) substituteLuCrout

/-- `solve_lu_doolittle`. -/
def solveLuDoolittle : EqnSys K V → EqnSys K V :=
  solveWith (factorizeLuDoolittle m) substituteLuDoolittle

/-- A matrix with its right-hand side, and more right-hand sides without one. -/
def solveInTurn (solve : EqnSys K V → EqnSys K V) {n : ℕ} (A : Matrix (Fin n) (Fin n) K)
    (s : EqnSys K V) (x : ℕ → K) (b : Fin n → K) (later : List ((ℕ → K) × (Fin n → K))) :
    EqnSys K V :=
  later.foldl (fun s next => solve (s.passEquationSys none next.1 (entries next.2)))
    (solve (s.passEquationSys (some (n, cells A)) x (entries b)))

end EqnSys

end Qucs.Linear
