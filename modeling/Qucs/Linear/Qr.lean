/-
# Factorisation by reflections

`eqnsys.cpp`, the two solvers that factorise by Householder
reflections and exchange columns. The vector of a reflection stands below the
diagonal of its column, without its first entry, which is one; its factor is
kept apart.

* T, cMap, nPvt: `Qr.T`, `Qr.cMap`, `Qr.nPvt`
* euclidian_update, euclidian_c: `euclidianUpdate`, `euclidianC`
* put column with largest norm …: `largestNorm`, `swapCols`
* update norms of remaining columns too: `remainingNorm`
* scalar product u' * B; z - T * f * u: `reflect`
* solve_qr, solve_qr_ls: `solveQr`, `solveQrLs`

Entries are real: `imag` is zero, `cond_conj` is the identity, `norm` is the
square. The square root and the two constants of the precision are parameters
(`Precision`).
-/
import Qucs.Lib.InPlace

namespace Qucs.Linear

open Lib.InPlace
open Function (update)
open List (range' range)

/-- The square root, NR_TINY and `numeric_limits<nr_double_t>::epsilon ()`. -/
structure Precision (V : Type*) where
  sqrt : V → V
  tiny : V
  epsilon : V

/-- What the factorisation writes. -/
structure Qr (V : Type*) where
  A : ℕ × ℕ → V
  T : ℕ → V
  cMap : ℕ → ℕ
  nPvt : ℕ → V

variable {V : Type*} [Field V] [LinearOrder V] (prec : Precision V) (N : ℕ)

/-! ## Norms -/

/-- The sum of squares and its scale, with one more number. -/
def euclidianUpdate (norm : V × V) (a : V) : V × V :=
  if a ≠ 0 then
    if norm.2 < |a| then
      let x := norm.2 / |a|
      (1 + norm.1 * x * x, |a|)
    else
      let x := |a| / norm.2
      (norm.1 + x * x, norm.2)
  else norm

variable (A : ℕ × ℕ → V)

/-- The norm of a column, from row `r` on. -/
def euclidianC (c r : ℕ) : V :=
  let norm := (range' r (N - r)).foldl (fun norm i => euclidianUpdate norm (A (i, c))) (1, 0)
  norm.2 * prec.sqrt norm.1

/-- The hypotenuse, of `real.cpp`. -/
def xhypot (a b : V) : V :=
  let c := |a|
  let d := |b|
  if c > d then
    let e := d / c
    c * prec.sqrt (1 + e * e)
  else if d = 0 then 0
  else
    let e := c / d
    d * prec.sqrt (1 + e * e)

/-- 1 for zero, as `sign_`. -/
def sign (a : V) : V := if a < 0 then -1 else 1

/-! ## Reflections -/

/-- The reflection of column `c` and factor `t`, applied to a vector. -/
def reflect (c : ℕ) (t : V) (B : ℕ → V) : ℕ → V :=
  let f := (range' (c + 1) (N - (c + 1))).foldl (fun f r => f + A (r, c) * B r) (B c)
  let f := f * t
  let B := update B c (B c - f)
  sweep (range' (c + 1) (N - (c + 1))) id (fun r B => B r - f * A (r, c)) B

/-- The vector that eliminates column `c`, in its place, and its factor. -/
def householderCreateLeft (c : ℕ) : (ℕ × ℕ → V) × V :=
  let s := euclidianC prec N A c (c + 1)
  -- no reflection necessary
  if s = 0 then (A, 0)
  else
    let a := A (c, c)
    let g := sign a * xhypot prec a s
    let b := a + g
    let t := b / g
    let A := sweep (range' (c + 1) (N - (c + 1))) (fun r => (r, c)) (fun r A => A (r, c) / b) A
    (update A (c, c) (-g), t)

/-- One right-hand column `r` of the loop. -/
def applyToColumn (c : ℕ) (t : V) (A : ℕ × ℕ → V) (r : ℕ) : ℕ × ℕ → V :=
  let f := (range' (c + 1) (N - (c + 1))).foldl (fun f k => f + A (k, c) * A (k, r)) (A (c, r))
  let f := f * t
  let A := update A (c, r) (A (c, r) - f)
  sweep (range' (c + 1) (N - (c + 1))) (fun k => (k, r)) (fun k A => A (k, r) - f * A (k, c)) A

/-- The reflection is applied to the columns behind. -/
def householderApplyLeft (c : ℕ) (t : V) : ℕ × ℕ → V :=
  (range' (c + 1) (N - (c + 1))).foldl (applyToColumn N c t) A

/-- A reflection is created, and applied. -/
def householderLeft (c : ℕ) : (ℕ × ℕ → V) × V :=
  let created := householderCreateLeft prec N A c
  (if created.2 ≠ 0 then householderApplyLeft N created.1 c created.2 else created.1, created.2)

/-! ## Factorisation -/

/-- The column norms, and the permutation vector at the beginning. The norms are
those of `euclidian_c` with its default first row, which is 1. -/
def columnNorms : Qr V where
  A := A
  T := 0
  cMap := id
  nPvt c := euclidianC prec N A c 1

/-- The column with the largest norm, the first one of them. -/
def largestNorm (nPvt : ℕ → V) (c : ℕ) : ℕ × V :=
  (range' (c + 1) (N - (c + 1))).foldl
    (fun best r => if nPvt r > best.2 then (r, nPvt r) else best) (c, nPvt c)

/-- Columns are swapped, with the table. -/
def swapCols (pivot c : ℕ) (s : Qr V) : Qr V :=
  { s with
    A := fun q => s.A (q.1, Equiv.swap pivot c q.2)
    cMap := s.cMap ∘ Equiv.swap pivot c
    nPvt := s.nPvt ∘ Equiv.swap pivot c }

/-- The norm of a remaining column, from the one before. -/
def remainingNorm (c r : ℕ) (s : V) : V :=
  if s > 0 then
    let t := A (c, r) / s * (A (c, r) / s)
    let y := if t < 1 then s * prec.sqrt (1 - t) else 0
    if |y / s| < prec.tiny then euclidianC prec N A r (c + 1) else y
  else s

def householderColumn (s : Qr V) (c : ℕ) : Qr V :=
  let pivot := (largestNorm N s.nPvt c).1
  let s := if pivot ≠ c then swapCols pivot c s else s
  let reflected := householderLeft prec N s.A c
  { A := reflected.1
    T := update s.T c reflected.2
    cMap := s.cMap
    nPvt := sweep (range' (c + 1) (N - (c + 1))) id
      (fun r nPvt => remainingNorm prec N reflected.1 c r (nPvt r)) s.nPvt }

/-- The loop over the columns. -/
def factorizeQrHouseholder : Qr V :=
  (range N).foldl (householderColumn prec N) (columnNorms prec N A)

/-! ## Substitution -/

/-- The reflection of column `c`, if there is one. -/
def reflectColumn (s : Qr V) (B : ℕ → V) (c : ℕ) : ℕ → V :=
  if s.T c ≠ 0 then reflect N s.A c (s.T c) B else B

/-- A diagonal entry that is not above the precision counts as zero. -/
def divideAbove (f d : V) : V := if |d| > prec.epsilon then f / d else 0

/-- Q'B, then backward substitution in order to solve RX = Q'B. -/
def substituteQrHouseholder (s : Qr V) (B X : ℕ → V) : ℕ → V :=
  let B := (range N).foldl (reflectColumn N s) B
  sweep (range N).reverse s.cMap
    (fun r X => divideAbove prec
      ((range' (r + 1) (N - (r + 1))).foldl (fun f c => f - s.A (r, c) * X (s.cMap c)) (B r))
      (s.A (r, r))) X

/-- Forward substitution in order to solve R'X = B, then QX, then the
permutation. -/
def substituteQrHouseholderLs (s : Qr V) (B X : ℕ → V) : ℕ → V :=
  let B := sweep (range N) id
    (fun r B => divideAbove prec
      ((range r).foldl (fun f c => f - s.A (c, r) * B c) (B r)) (s.A (r, r))) B
  let B := (range N).reverse.foldl (reflectColumn N s) B
  sweep (range N) s.cMap (fun r _ => B r) X

/-- `solve_qr`. -/
def solveQr (B X : ℕ → V) : ℕ → V :=
  substituteQrHouseholder prec N (factorizeQrHouseholder prec N A) B X

/-- The transposed matrix is factorised. -/
def solveQrLs (B X : ℕ → V) : ℕ → V :=
  substituteQrHouseholderLs prec N (factorizeQrHouseholder prec N fun q => A (q.2, q.1)) B X

end Qucs.Linear
