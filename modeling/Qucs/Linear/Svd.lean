/-
# Diagonalising a bidiagonal matrix

`eqnsys.cpp`, `diagonalize_svd`. The diagonal S and the entries E above
it are made smaller by rotations, which are collected in U and V'. An entry E (i)
stands above S (i), in the row i - 1; E (0) is always zero.

* U_ (= A_), S_, E_, V_: `Svd.U`, `Svd.S`, `Svd.E`, `Svd.V`
* check for a zero entry along …: `search`
* cancellation of E_(l): `cancel`
* compute QR shift value: `shift`
* next QR transformation: `chaseRound`, `qrSweep`
* the body of the loop over `its`: `iteration`
* the loop over `its`: `iterations`

Entries are real. A loop that is left early is a recursion that stops there. The
values are not sorted in this function.
-/
import Qucs.Lib.Numerals
import Qucs.Lib.Rotations
import Qucs.Linear.Qr

namespace Qucs.Linear

open Lib.Rotations
open Function (update)

/-- What the function works on. -/
structure Svd (V : Type*) where
  U : ℕ × ℕ → V
  S : ℕ → V
  E : ℕ → V
  V : ℕ × ℕ → V

section Rotations

variable {V : Type*} [Field V] [LinearOrder V] (prec : Precision V)

/-- The radius, the cosine and the sine. -/
def givens (a b : V) : V × V × V :=
  let z := xhypot prec a b
  (z, a / z, b / z)

variable (N : ℕ)

/-- Two columns of U are turned. -/
def givensApplyU (c1 c2 : ℕ) (c s : V) (U : ℕ × ℕ → V) : ℕ × ℕ → V :=
  rotate (fun i => (i, c1)) (fun i => (i, c2)) c s N U

/-- Two rows of V' are turned. -/
def givensApplyV (r1 r2 : ℕ) (c s : V) (W : ℕ × ℕ → V) : ℕ × ℕ → V :=
  rotate (fun i => (r1, i)) (fun i => (r2, i)) c s N W

end Rotations

namespace Svd

variable {V : Type*} [Field V] [LinearOrder V] (prec : Precision V) (N : ℕ) (an : V)

/-- The largest bidiagonal value. -/
def largest (x : Svd V) : V :=
  (List.range N).foldl (fun an i => if an > |x.S i| + |x.E i| then an else |x.S i| + |x.E i|) 0

/-- `fabs (x) + an == an`. -/
def negligible (x : V) : Bool := |x| + an = an

/-- Where the matrix can be split. -/
structure Split where
  l : ℕ
  split : Bool
  n : ℕ

/-- The search from `l` down: a zero above the diagonal, or one on it, to the left. -/
def search (x : Svd V) : ℕ → Split
  | 0 => ⟨0, true, 0⟩
  | l + 1 =>
    if negligible an (x.E (l + 1)) then ⟨l + 1, false, l⟩
    else if negligible an (x.S l) then ⟨l + 1, true, l⟩
    else search x l

/-- `E_(i)` is turned into the rows `i` from the row `n`, whose diagonal is zero. -/
def cancel (n : ℕ) : List ℕ → V → V → Svd V → Svd V
  | [], _, _, x => x
  | i :: is, c, s, x =>
    let f := -s * x.E i
    let x := { x with E := update x.E i (x.E i * c) }
    if negligible an f then x
    else
      let g := x.S i
      let z := givens prec f g
      cancel n is z.2.1 z.2.2
        { x with S := update x.S i z.1, U := givensApplyU N n i z.2.1 z.2.2 x.U }

/-- The shift from the 2-by-2 minor at the bottom. -/
def shift (x : Svd V) (l k : ℕ) : V :=
  let d := x.S k
  let a := x.S l
  let n := k - 1
  let b := x.S n
  let g := x.E n
  let h := x.E k
  let f := (b - d) * (b + d) + (g - h) * (g + h)
  let f := f / (2 * h * b)
  let f := f + sign f * xhypot prec f 1
  ((a - d) * (a + d) + h * (b / f - h)) / a

/-- The variables of the QR transformation. -/
structure Chase (V : Type*) where
  x : Svd V
  f : V
  a : V
  c : V
  s : V

/-- One column: a rotation from the right, and one from the left. -/
def chaseRound (w : Chase V) (j : ℕ) : Chase V :=
  let i := j + 1
  let g := w.x.E i
  let b := w.x.S i
  let h := w.s * g
  let g := g * w.c
  let z := givens prec w.f h
  let c := z.2.1
  let s := z.2.2
  let f := w.a * c + g * s
  let g := g * c - w.a * s
  let h := b * s
  let b := b * c
  let d := xhypot prec f h
  -- rotation can be arbitrary if d = 0
  let c' := if d ≠ 0 then f * (1 / d) else c
  let s' := if d ≠ 0 then h * (1 / d) else s
  { x :=
      { U := givensApplyU N j i c' s' w.x.U
        S := update w.x.S j d
        E := update w.x.E j z.1
        V := givensApplyV N j i c s w.x.V }
    f := c' * g + s' * b
    a := c' * b - s' * g
    c := c'
    s := s' }

/-- The next QR transformation. -/
def qrSweep (l k : ℕ) (f : V) (x : Svd V) : Svd V :=
  let w := (List.range' l (k - l)).foldl (chaseRound prec N) ⟨x, f, x.S l, 1, 1⟩
  { w.x with
    E := update (update w.x.E l 0) k w.f
    S := update w.x.S k w.a }

/-- The singular value is made non-negative. -/
def nonNegative (k : ℕ) (x : Svd V) : Svd V :=
  if x.S k < 0 then
    { x with
      S := update x.S k (-x.S k)
      V := fun q => if q.1 = k ∧ q.2 < N then -x.V q else x.V q }
  else x

/-- One round for the singular value `k`, and whether it is the last. -/
def iteration (k : ℕ) (x : Svd V) : Svd V × Bool :=
  let p := search an x k
  let x := if p.split then cancel prec N an p.n (List.range' p.l (k + 1 - p.l)) 0 1 x else x
  if p.l = k then (nonNegative N k x, true)
  else (qrSweep prec N p.l k (shift prec x p.l k) x, false)

/-- `MaxIters`; the loop runs once more. -/
def maxIters : ℕ := 30

/-- At most so many rounds. -/
def iterations (k : ℕ) : ℕ → Svd V → Svd V
  | 0, x => x
  | its + 1, x =>
    let y := iteration prec N an k x
    if y.2 then y.1 else iterations k its y.1

/-- `diagonalize_svd`. -/
def diagonalizeSvd (x : Svd V) : Svd V :=
  let an := largest N x
  (List.range N).reverse.foldl (fun x k => iterations prec N an k (maxIters + 1) x) x

end Svd

end Qucs.Linear
