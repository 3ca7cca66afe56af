/-
# Coefficients of the integration methods

`transient.cpp`. The derivative of a state and the prediction of a
solution are weighted sums of earlier values, with weights that depend on the method,
its order and the last time steps. Most weights are the solution of a small equation
system.

* e.passEquationSys (&A, &x, &b) ...: `solvedSystem`
* the nested loop of the Gear methods: `powerColumns`

`delta` are the last time steps, the present one first. A new matrix and new vectors
are zero. The array of the coefficients is passed in and keeps what is not written.
ALGO_LU_DECOMPOSITION is Crout's algorithm.
-/
import Qucs.Lib.Numerals
import Qucs.Linear.Lu

namespace Qucs.Transient

open Linear
open List (range range')
open Function (update)

/-- The `INTEGRATOR_` constants. -/
inductive Integrator where
  | euler
  | trapezoidal
  | gear
  | adamsMoulton
  | adamsBashford
  deriving DecidableEq, Repr

variable {K V : Type*} [Field K] [Field V] [LinearOrder V] (m : Magnitude K V)

/-- The system is passed to a new `eqnsys` and solved. -/
def solvedSystem (size : ℕ) (A : ℕ × ℕ → K) (b : ℕ → K) : ℕ → K :=
  (EqnSys.solveLuCrout m (EqnSys.fresh.passEquationSys (some (size, A)) 0 b)).X

/-- `for (a = 1, r = 0; r < order; r++) { a *= x; A.set (r + 1, c, a); }` -/
def powerColumn (x : K) (c order : ℕ) (A : ℕ × ℕ → K) : K × (ℕ × ℕ → K) :=
  (range order).foldl (fun (a, A) r => (a * x, update A (r + 1, c) (a * x))) (1, A)

variable (order : ℕ)

/-- Columns of powers, for the time from the new point back to one point after the
other; the first of them is `offset`. -/
def powerColumns (delta : ℕ → K) (columns offset : ℕ) (A : ℕ × ℕ → K) :
    K × (ℕ × ℕ → K) :=
  (range columns).foldl (fun (f, A) c =>
    (f + delta c, (powerColumn ((f + delta c) / delta 0) (c + offset) order A).2)) (0, A)

/-- `for (c = 0; c < order + 1; c++) A.set (0, c, 1);` -/
def firstRow : ℕ × ℕ → K :=
  (range (order + 1)).foldl (fun A c => update A (0, c) 1) 0

/-- The entries `r * entry` of the Adams methods, from row 2 on, with the powers of
`-c`. -/
def adamsColumn (c column order : ℕ) (A : ℕ × ℕ → K) : ℕ × ℕ → K :=
  ((range' 2 (order - 1)).foldl (fun (entry, A) r =>
    (entry * -(c : K), update A (r, column) (r * entry))) (-(c : K), A)).2

def moultonMatrix : ℕ × ℕ → K :=
  let A : ℕ × ℕ → K := (range' 1 order).foldl (fun A i =>
    update (update A (i, 1) (i : K)) (1, i) 1) 0
  let A := update A (0, 0) 1
  (range' 1 (order - 2)).foldl (fun A c => adamsColumn c (c + 2) order A) A

def bashfordMatrix : ℕ × ℕ → K :=
  let A : ℕ × ℕ → K := (range' 1 order).foldl (fun A i => update A (1, i) 1) 0
  let A := update A (0, 0) 1
  (range' 1 (order - 1)).foldl (fun A c => adamsColumn c (c + 1) order A) A

/-- The matrix and the right-hand side of the Gear corrector. -/
def gearCorrector (delta : ℕ → K) : (ℕ × ℕ → K) × (ℕ → K) :=
  ((powerColumns order delta order 1 (firstRow order)).2, update 0 1 (-1 / delta 0))

def calcCorrectorCoeff (method : Integrator) (order : ℕ) (coefficients delta : ℕ → K) : ℕ → K :=
  match method with
  | .gear =>
    let (A, b) := gearCorrector order delta
    let x := solvedSystem m (order + 1) A b
    fun r => if r ≤ order then x r else coefficients r
  | .euler => update (update coefficients 0 (1 / delta 0)) 1 (-1 / delta 0)
  | .trapezoidal => update (update coefficients 0 (2 / delta 0)) 1 (-2 / delta 0)
  | .adamsMoulton =>
    let x := solvedSystem m (order + 1) (moultonMatrix order) fun i => if i ≤ order then 1 else 0
    let k := x 1
    fun i =>
      if i = 0 then 1 / delta 0 / k
      else if i = 1 then -x 0 / delta 0 / k
      else if i ≤ order then -x i / k
      else coefficients i
  | .adamsBashford => coefficients

/-- The matrix and the right-hand side of the Gear predictor. -/
def gearPredictor (delta : ℕ → K) : (ℕ × ℕ → K) × (ℕ → K) :=
  ((powerColumns order delta (order + 1) 0 (firstRow order)).2, update 0 0 1)

def calcPredictorCoeff (method : Integrator) (order : ℕ) (coefficients delta : ℕ → K) : ℕ → K :=
  match method with
  | .gear =>
    let (A, b) := gearPredictor order delta
    let x := solvedSystem m (order + 1) A b
    fun r => if r ≤ order then x r else coefficients r
  | .adamsBashford =>
    let x := solvedSystem m (order + 1) (bashfordMatrix order) fun i => if i ≤ order then 1 else 0
    fun i =>
      if order = 2 ∧ i ≤ 2 then
        -- variable steps are known for order 2 only
        let f := -delta 0 / (2 * delta 1)
        if i = 0 then 1 else if i = 1 then (1 - f) * delta 0 else f * delta 0
      else if i = 0 then x 0
      else if i ≤ order then x i * delta 0
      else coefficients i
  | .euler => update (update coefficients 0 1) 1 (delta 0)
  | .trapezoidal | .adamsMoulton => coefficients

/-! ## Where they are used -/

/-- The equivalent conductance and current of a charge and its current, which is the
derivative; `state i` is the charge `i` steps ago. -/
structure Integrated (K : Type*) where
  geq : K
  ceq : K
  cur : K

def integrateGear (coeff : ℕ → K) (order : ℕ) (cap : K) (state : ℕ → K) : Integrated K :=
  let ceq := (range' 1 order).foldl (fun ceq i => ceq + state i * coeff i) 0
  { geq := cap * coeff 0, ceq, cur := state 0 * coeff 0 + ceq }

/-- `current i` is the derivative `i` steps ago. -/
def integrateMoulton (coeff : ℕ → K) (order : ℕ) (cap : K) (state current : ℕ → K) :
    Integrated K :=
  let ceq := (range' 2 (order - 1)).foldl (fun ceq i => ceq + current (i - 1) * coeff i)
    (state 1 * coeff 1)
  { geq := cap * coeff 0, ceq, cur := state 0 * coeff 0 + ceq }

/-- The prediction of one entry; `sol i` is the entry `i` steps ago. -/
def predictGear (predCoeff : ℕ → K) (predOrder : ℕ) (sol : ℕ → K) : K :=
  (range (predOrder + 1)).foldl (fun xn o => xn + predCoeff o * sol (o + 1)) 0

/-- The same with `predCoeff` as weights of derivatives, for which the divided
differences of the saved solutions stand; `dState o` is the step `o` steps ago. -/
def predictBashford (predCoeff : ℕ → K) (predOrder : ℕ) (dState sol : ℕ → K) : K :=
  (range' 1 predOrder).foldl
    (fun xn o => xn + predCoeff o * ((sol o - sol (o + 1)) / dState o)) (predCoeff 0 * sol 1)

def predictEuler (predCoeff dState sol : ℕ → K) : K :=
  predCoeff 0 * sol 1 + predCoeff 1 * ((sol 1 - sol 2) / dState 1)

/-- "Actually this is Adams-Bashford order 1." -/
theorem predictEuler_eq (predCoeff dState sol : ℕ → K) :
    predictEuler predCoeff dState sol = predictBashford predCoeff 1 dState sol := rfl

end Qucs.Transient
