/-
# The time steps of the transient analysis

`trsolver.cpp`, `states.cpp`, `history.cpp`. The solver goes
through the requested times. For each of them a loop calls the predictor and the
corrector, with a step `delta` of its own choice, until the last accepted time
`saveCurrent` is not before the requested one; then the results are saved. A
call is rejected if the corrector does not converge, or if the truncation error
asks for a smaller step.

* states: `States` (one row)
* history: `History`, with the time vector apart
* circuit: `Circuit` (ring position and histories)
* trsolver::adjustDelta: `proposeDelta`, `passes`, `adjustDelta`
* case EXCEPTION_NO_CONVERGENCE: `reduceStep`
* the body of the do-while: `corrected`, `judge`, `advance`, `attempt`
* trsolver::solve, from the for on: `solve`

What the predictor and the corrector compute is an input, one `Call` for each
pass of the loop: the prediction, and how the corrector ends. The row `sState`
of the solver's states holds the number `i` at the place `i` throughout, so that
`SOL (n)` is the solution at the place that `getState` reads.
-/
import Qucs.Lib.Numerals

namespace Qucs.Transient

/-! ## Rings of states -/

/-- The places of a ring are counted modulo eight. -/
instance States.size : NeZero 8 := ⟨by decide⟩

/-- Eight values, read from the current position on. Higher positions mean earlier
states. -/
structure States (α : Type) where
  stateval : Fin 8 → α
  currentstate : Fin 8

namespace States

variable {α : Type} (s : States α)

def getState (n : Fin 8) : α := s.stateval (n + s.currentstate)

def setState (val : α) : States α :=
  { s with stateval := Function.update s.stateval s.currentstate val }

def nextState : States α := { s with currentstate := s.currentstate - 1 }

/-- The values from the current position on; the inverse is `inputState`. -/
def saveState : Fin 8 → α := s.getState

def inputState (values : Fin 8 → α) : States α :=
  { s with stateval := fun i => values (i - s.currentstate) }

theorem getState_setState (val : α) : (s.setState val).getState 0 = val := by
  have hzero : 0 + s.currentstate = s.currentstate := Fin.zero_add _
  rw [getState, setState, hzero]
  exact Function.update_self ..

theorem getState_nextState (n : Fin 8) : s.nextState.getState (n + 1) = s.getState n := by
  have hshift : ∀ n i : Fin 8, n + 1 + (i - 1) = n + i := by decide
  exact congrArg s.stateval (hshift n s.currentstate)

end States

variable {K : Type} [Field K] [LinearOrder K]

/-! ## Histories -/

/-- The values of one terminal, or of one branch. The times belonging to them are
in a vector that all histories share. -/
structure History (K : Type) where
  age : K
  values : List K

namespace History

variable (t : List K) (h : History K)

/-- The left-most valid index into the time vector. -/
def leftidx : ℕ := t.length - h.values.length

/-- How many values there are more than times. -/
def unused : ℕ := h.values.length - t.length

/-- How many values are to be dropped: all but two of those older than the age. -/
def outdated : ℕ :=
  let r := ((t.drop (h.leftidx t)).takeWhile fun u => ¬t.getLastD 0 - u < h.age).length
  let r := r + h.unused t
  let r := if r ≥ 2 then r - 2 else r
  min r (h.values.length - 1)

/-- Values are erased in blocks only. -/
def drop : History K :=
  if h.values ≠ [] ∧ h.age > 0 ∧ t.getLastD 0 - t.getD (h.leftidx t) 0 > h.age ∧
      h.outdated t > 127 then
    { h with values := h.values.drop (h.outdated t) }
  else h

def push_back (val : K) : History K := drop t { h with values := h.values ++ [val] }

end History

/-- A circuit: the position of its states, and its histories, each with the row of
the solution vector it records. A node that is not found has none. -/
structure Circuit (K : Type) where
  currentstate : Fin 8
  histories : List (Option ℕ × History K)

namespace Circuit

variable (c : Circuit K)

def nextState : Circuit K := { c with currentstate := c.currentstate - 1 }

def saveHistory (t x : List K) : Circuit K :=
  { c with histories := c.histories.map fun (r, h) =>
      (r, h.push_back t (r.elim 0 fun r => x.getD r 0)) }

/-- The age of the first history stands for all of them. -/
def getHistoryAge : K := (c.histories.head?.map fun h => h.2.age).getD 0

end Circuit

/-! ## The solver -/

structure Properties (K : Type) where
  deltaMin : K
  deltaMax : K
  relaxTSR : Bool
  corrMaxOrder : ℕ

structure Solver (K : Type) where
  current : K
  saveCurrent : K
  delta : K
  stepDelta : K
  running : ℕ
  rejected : ℕ
  converged : ℕ
  statConvergence : ℕ
  corrOrder : ℕ
  x : List K
  steps : States K
  deltas : Fin 8 → K
  solution : Fin 8 → List K
  circuits : List (Circuit K)
  /-- The values of `tHistory`, which is its own time vector. -/
  times : List K
  timesAge : K

/-- How the corrector ends: without convergence, with some other error, with a
singular Jacobian, or with a solution. For a solution, `n` is the step according
to the local truncation error. -/
inductive Outcome (K : Type) where
  | noConvergence (x : List K)
  | failed (x : List K)
  | singular (x : List K)
  | solved (x : List K) (n : K)
  deriving DecidableEq

structure Call (K : Type) where
  prediction : List K
  outcome : Outcome K

/-- The next step, the one to be restored after it, and whether the last step was made
to measure and is good in any case. -/
structure Proposal (K : Type) where
  delta : K
  stepDelta : K
  good : Bool

namespace Solver

variable (p : Properties K) (s : Solver K)

def sol (n : Fin 8) : List K := s.solution (n + s.steps.currentstate)

def setSol (x : List K) : Solver K :=
  { s with solution := Function.update s.solution s.steps.currentstate x }

def updateCoefficients : Solver K :=
  let steps := s.steps.setState s.delta
  { s with steps := steps, deltas := steps.saveState }

def predictor (prediction : List K) : Solver K := { s with x := prediction }.setSol prediction

def nextStates : Solver K :=
  let s := { s with circuits := s.circuits.map Circuit.nextState }.setSol s.x
  { s with steps := s.steps.nextState }

def adjustOrder (reduce : Bool) : Solver K :=
  if (s.corrOrder < p.corrMaxOrder ∧ s.rejected = 0) ∨ reduce then
    { s with corrOrder := if reduce then 1 else s.corrOrder + 1 }
  else s

def clampDelta (delta : K) : K :=
  let delta := if delta > p.deltaMax then p.deltaMax else delta
  if delta < p.deltaMin then p.deltaMin else delta

def checkDelta (n : K) : K := min (if n > 19 / 10 * s.delta then 2 * s.delta else s.delta) n

/-- The new step for the requested time `t`. -/
def proposeDelta (t n : K) : Proposal K :=
  let delta := clampDelta p (s.checkDelta n)
  if ¬p.relaxTSR ∧ (s.statConvergence = 0 ∨ s.converged > 64) then
    let d : Proposal K :=
      if s.stepDelta > 0 then ⟨s.stepDelta, -1, false⟩
      else if t - (s.current + delta) < p.deltaMin ∧ s.current + delta < t then
        ⟨delta / 2, s.stepDelta, false⟩
      else if delta > t - s.current ∧ t > s.current then ⟨t - s.current, s.delta, true⟩
      else ⟨delta, -1, false⟩
    { d with delta := clampDelta p d.delta }
  else ⟨delta, s.stepDelta, false⟩

/-- The step-size test. The step is rejected only if the new one is smaller. -/
def passes (t n : K) : Bool :=
  let d := s.proposeDelta p t n
  d.delta > 9 / 10 * s.delta ∨ d.good ∨ ¬s.delta > d.delta

/-- The proposed step is taken, or the old one is rejected. -/
def adjustDelta (t n : K) : Solver K :=
  let deltaOld := s.delta
  let d := s.proposeDelta p t n
  if s.passes p t n then
    { nextStates { s with delta := d.delta, stepDelta := d.stepDelta } with rejected := 0 }
  else
    { s with
      delta := d.delta, stepDelta := d.stepDelta, rejected := s.rejected + 1
      current := if s.current > 0 then s.current - deltaOld else s.current }

/-- The circuits that have histories get the new time vector. -/
def initHistory (t : K) : Solver K :=
  let circuits := s.circuits.map fun c => c.saveHistory [t] s.x
  { s with
    circuits := circuits, times := [t]
    timesAge := circuits.foldl (fun age c => max age c.getHistoryAge) 0 }

def updateHistory (t : K) : Solver K :=
  if t > s.times.getLastD 0 then
    let times := s.times ++ [t]
    { s with
      circuits := s.circuits.map fun c => c.saveHistory times s.x
      times := (History.drop times ⟨s.timesAge, times⟩).values }
  else s

/-- The handler of the exception: one half of the step, but not below the minimum. -/
def reduceStep : Solver K :=
  let current := if s.current > 0 then s.current - s.delta else s.current
  let s := { s with current := current, delta := s.delta / 2 }
  let s := if s.delta ≤ p.deltaMin then adjustOrder p { s with delta := p.deltaMin } true else s
  { s with
    current := if s.current > 0 then s.current + s.delta else s.current
    statConvergence := s.statConvergence + 1, rejected := s.rejected + 1, converged := 0 }

/-- From `saveCurrent = current` on. -/
def advance : Solver K :=
  let s := { s with
    saveCurrent := s.current, current := s.current + s.delta
    running := s.running + 1, converged := s.converged + 1 }
  if s.running > 1 then s.updateHistory s.saveCurrent else s.initHistory s.saveCurrent

/-- A call after its corrector. -/
def corrected (prediction x : List K) : Solver K :=
  { s.updateCoefficients.predictor prediction with rejected := 0, x := x }

/-- Order and step, from the third pass on. -/
def judge (time n : K) : Solver K :=
  if s.running > 1 then adjustOrder p (s.adjustDelta p time n) false
  else { s.nextStates with rejected := 0 }

/-- The body of the loop for the requested time. The function returns with an error
in the state to the left; the loop goes on, or is left, in the one to the right. -/
def attempt (time : K) (call : Call K) : Except (Solver K) (Solver K) :=
  match call.outcome with
  | .noConvergence x => .ok ((s.corrected call.prediction x).reduceStep p)
  | .failed x => .error (s.corrected call.prediction x)
  | .singular x => .error (s.corrected call.prediction x)
  | .solved x n => .ok ((s.corrected call.prediction x).judge p time n).advance

end Solver

/-! ## The loops -/

/-- One pass of the loop: the state before it, the requested time, the call, and the
state in which the loop was left if it hit the requested time point. -/
structure Event (K : Type) where
  before : Solver K
  time : K
  call : Call K
  hit : Option (Solver K)

/-- How the loop ends: it waits for the next call, an error was returned, or the time
point is hit. The calls that are left follow. -/
inductive Exit (K : Type) where
  | waiting (s : Solver K)
  | error (s : Solver K) (calls : List (Call K))
  | hit (s : Solver K) (calls : List (Call K))

/-- The do-while. -/
def doWhile (p : Properties K) (time : K) : List (Call K) → Solver K → List (Event K) × Exit K
  | [], s => ([], .waiting s)
  | call :: calls, s =>
    match s.attempt p time call with
    | .error s' => ([⟨s, time, call, none⟩], .error s' calls)
    | .ok s' =>
      if s'.saveCurrent < time then
        let (events, exit) := doWhile p time calls s'
        (⟨s, time, call, none⟩ :: events, exit)
      else ([⟨s, time, call, some s'⟩], .hit s' calls)

/-- The sweep through the requested times. The results are saved at each event that
hits its time point. -/
def solve (p : Properties K) : List K → List (Call K) → Solver K → List (Event K)
  | [], _, _ => []
  | time :: times, calls, s =>
    let (events, exit) := doWhile p time calls s
    events ++ match exit with
      | .hit s' calls => solve p times calls s'
      | .error _ _ | .waiting _ => []

/-- The solver at the first requested time: the first step is one tenth of the
initial one, and the integrators have the first order. -/
def Solver.start (delta : K) (x : List K) (circuits : List (Circuit K)) : Solver K where
  current := 0
  saveCurrent := 0
  delta := delta / 10
  stepDelta := -1
  running := 0
  rejected := 0
  converged := 0
  statConvergence := 0
  corrOrder := 1
  x := x
  steps := ⟨fun _ => delta / 10, 0⟩
  deltas := fun _ => delta
  solution := fun _ => x
  circuits := circuits
  times := []
  timesAge := 0

end Qucs.Transient
