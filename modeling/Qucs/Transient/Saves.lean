/-
# Which solutions the transient analysis saves

`trsolver.cpp`. The results are saved when the loop for a
requested time is left. A rejected call is meant to be repeated with a smaller
step:

    if (rejected) continue;

But in a do-while the test comes next, `saveCurrent < time`. If the last
accepted time is not before the requested one, as at the first time point 0, the
loop is left after a rejected call, and its solution is saved.

* the call converged and passed the test: `Event.Accepted`
* the last accepted time: `Event.returnsTo`

`solve_accepted_iff` says that this is the only way: all saved solutions are
accepted ones iff each rejected call finds the last accepted time before
the requested one.
-/
import Qucs.Transient.Solver

namespace Qucs.Transient

open Solver List

/-! ## What a pass of the loop can do -/

namespace Solver

theorem adjustOrder_eq {K : Type} (p : Properties K) (s : Solver K) (reduce : Bool) :
    ∃ o, s.adjustOrder p reduce = { s with corrOrder := o } := by
  rw [adjustOrder]
  split
  · exact ⟨_, rfl⟩
  · exact ⟨s.corrOrder, rfl⟩

section Fields

variable {K : Type} (s : Solver K) (prediction x : List K)

@[simp]
theorem nextStates_current : s.nextStates.current = s.current := rfl

@[simp]
theorem nextStates_x : s.nextStates.x = s.x := rfl

@[simp]
theorem corrected_current : (s.corrected prediction x).current = s.current := rfl

@[simp]
theorem corrected_saveCurrent : (s.corrected prediction x).saveCurrent = s.saveCurrent := rfl

@[simp]
theorem corrected_delta : (s.corrected prediction x).delta = s.delta := rfl

@[simp]
theorem corrected_running : (s.corrected prediction x).running = s.running := rfl

@[simp]
theorem corrected_x : (s.corrected prediction x).x = x := rfl

end Fields

@[simp]
theorem start_saveCurrent {K : Type} [Field K] (delta : K) (x : List K)
    (circuits : List (Circuit K)) : (start delta x circuits).saveCurrent = 0 := rfl

variable {K : Type} [Field K] [LinearOrder K] (p : Properties K) (s : Solver K)

/-- Only the histories and the times are not given here. -/
theorem advance_eq : ∃ cs ts age, s.advance = { s with
    saveCurrent := s.current, current := s.current + s.delta
    running := s.running + 1, converged := s.converged + 1
    circuits := cs, times := ts, timesAge := age } := by
  rw [advance]
  split
  · rw [updateHistory]
    split
    · exact ⟨_, _, _, rfl⟩
    · exact ⟨s.circuits, s.times, s.timesAge, rfl⟩
  · exact ⟨_, _, _, rfl⟩

def nextDelta (time n : K) : K :=
  if s.running > 1 then (s.proposeDelta p time n).delta else s.delta

theorem proposeDelta_corrected (prediction x : List K) (t n : K) :
    (s.corrected prediction x).proposeDelta p t n = s.proposeDelta p t n := by
  cases s
  rfl

@[simp]
theorem passes_corrected (prediction x : List K) (t n : K) :
    (s.corrected prediction x).passes p t n = s.passes p t n := by
  simp only [passes, proposeDelta_corrected, corrected_delta]

@[simp]
theorem nextDelta_corrected (prediction x : List K) (t n : K) :
    (s.corrected prediction x).nextDelta p t n = s.nextDelta p t n := by
  simp only [nextDelta, proposeDelta_corrected, corrected_delta, corrected_running]

@[simp]
theorem advance_saveCurrent : s.advance.saveCurrent = s.current := by
  obtain ⟨cs, ts, age, h⟩ := advance_eq s
  rw [h]

@[simp]
theorem advance_current : s.advance.current = s.current + s.delta := by
  obtain ⟨cs, ts, age, h⟩ := advance_eq s
  rw [h]

@[simp]
theorem advance_delta : s.advance.delta = s.delta := by
  obtain ⟨cs, ts, age, h⟩ := advance_eq s
  rw [h]

@[simp]
theorem advance_steps : s.advance.steps = s.steps := by
  obtain ⟨cs, ts, age, h⟩ := advance_eq s
  rw [h]

@[simp]
theorem advance_x : s.advance.x = s.x := by
  obtain ⟨cs, ts, age, h⟩ := advance_eq s
  rw [h]

variable {p s}

/-- A solution is accepted, or its step is taken back. -/
theorem judge_cases (p : Properties K) (s : Solver K) (time n : K) :
    (1 < s.running → s.passes p time n) ∧ (∃ o stepDelta, s.judge p time n =
      { s.nextStates with
        rejected := 0, corrOrder := o, delta := s.nextDelta p time n, stepDelta := stepDelta }) ∨
    (1 < s.running ∧ ¬s.passes p time n) ∧ ∃ o stepDelta, s.judge p time n = { s with
        rejected := s.rejected + 1, corrOrder := o, delta := s.nextDelta p time n
        stepDelta := stepDelta
        current := if s.current > 0 then s.current - s.delta else s.current } := by
  obtain ⟨o, ho⟩ := adjustOrder_eq p (s.adjustDelta p time n) false
  by_cases hrun : 1 < s.running
  · rw [judge, nextDelta, if_pos hrun, if_pos hrun, ho, adjustDelta]
    by_cases hpass : s.passes p time n
    · rw [if_pos hpass]
      exact .inl ⟨fun _ => hpass, o, _, rfl⟩
    · rw [if_neg hpass]
      exact .inr ⟨⟨hrun, hpass⟩, o, _, rfl⟩
  · rw [judge, nextDelta, if_neg hrun, if_neg hrun]
    exact .inl ⟨fun h => absurd h hrun, s.corrOrder, s.stepDelta, rfl⟩

theorem reduceStep_eq : ∃ o, s.reduceStep p = { s with
    corrOrder := o, delta := max (s.delta / 2) p.deltaMin
    current :=
      if (if s.current > 0 then s.current - s.delta else s.current) > 0 then
        (if s.current > 0 then s.current - s.delta else s.current) + max (s.delta / 2) p.deltaMin
      else if s.current > 0 then s.current - s.delta else s.current
    statConvergence := s.statConvergence + 1, rejected := s.rejected + 1, converged := 0 } := by
  rw [reduceStep]
  generalize (if s.current > 0 then s.current - s.delta else s.current) = back
  split
  case isTrue h =>
    obtain ⟨o, ho⟩ := adjustOrder_eq p { s with current := back, delta := p.deltaMin } true
    rw [ho, max_eq_right h]
    exact ⟨o, rfl⟩
  case isFalse h =>
    rw [max_eq_left (not_le.mp h).le]
    exact ⟨s.corrOrder, rfl⟩

theorem reduceStep_saveCurrent : (s.reduceStep p).saveCurrent = s.saveCurrent := by
  obtain ⟨o, h⟩ := reduceStep_eq (s := s)
  rw [h]

end Solver

/-! ## Accepted and rejected calls -/

namespace Event

variable {K : Type} [Field K] [LinearOrder K] (p : Properties K) (e : Event K)

/-- The call converged and passed the step-size test, if there was one; `s` has its
solution, at the time and with the step it was made for. -/
structure Accepted (s : Solver K) : Prop where
  outcome : ∃ n, e.call.outcome = .solved s.x n ∧
    (1 < e.before.running → e.before.passes p e.time n)
  time : s.saveCurrent = e.before.current
  step : s.steps.getState 1 = e.before.delta

/-- The call is to be repeated. -/
def Rejected : Prop :=
  match e.call.outcome with
  | .noConvergence _ => True
  | .failed _ | .singular _ => False
  | .solved _ n => 1 < e.before.running ∧ ¬e.before.passes p e.time n

def accepts : Bool :=
  match e.call.outcome with
  | .solved _ n => e.before.running ≤ 1 ∨ e.before.passes p e.time n
  | _ => false

/-- The last accepted time, as the branch that rejects the call has it. -/
def returnsTo : K :=
  match e.call.outcome with
  | .solved _ _ => if e.before.current > 0 then e.before.current - e.before.delta
      else e.before.current
  | _ => e.before.saveCurrent

variable {p e} {s : Solver K}

theorem Accepted.not_rejected (h : e.Accepted p s) : ¬e.Rejected p := by
  obtain ⟨n, hout, hpass⟩ := h.outcome
  rw [Rejected, hout]
  rintro ⟨hrun, hnot⟩
  exact hnot (hpass hrun)

/-- **One pass of the loop** accepts its call, or goes back. -/
theorem attempt_cases (h : e.before.attempt p e.time e.call = .ok s) :
    e.Accepted p s ∨ e.Rejected p ∧ s.saveCurrent = e.returnsTo := by
  rw [attempt] at h
  split at h
  case h_1 x hout =>
    cases h
    refine .inr ⟨?_, ?_⟩
    · rw [Rejected, hout]
      trivial
    · rw [returnsTo, hout, reduceStep_saveCurrent, corrected_saveCurrent]
  case h_2 => cases h
  case h_3 => cases h
  case h_4 x n hout =>
    cases h
    rcases judge_cases p (e.before.corrected e.call.prediction x) e.time n with
      ⟨hpass, o, stepDelta, hjudge⟩ | ⟨hpass, o, stepDelta, hjudge⟩
    · rw [corrected_running, passes_corrected] at hpass
      rw [hjudge]
      refine .inl ?_
      constructor
      case outcome => exact ⟨n, by simp [hout], hpass⟩
      case time => simp
      case step =>
        rw [advance_steps]
        exact (States.getState_nextState _ 0).trans (States.getState_setState _ _)
    · rw [corrected_running, passes_corrected] at hpass
      rw [hjudge, Rejected, returnsTo, hout, advance_saveCurrent]
      exact .inr ⟨hpass, rfl⟩

/-- The event is what the loop made of its call. -/
def Made (p : Properties K) (e : Event K) : Prop :=
  e.hit = match e.before.attempt p e.time e.call with
    | .error _ => none
    | .ok s => if s.saveCurrent < e.time then none else some s

/-- At one event: the loop is left after an accepted call only, iff a rejected
one comes too early to leave it. -/
theorem Made.accepted_iff (h : e.Made p) :
    (∀ s, e.hit = some s → e.Accepted p s) ↔ (e.Rejected p → e.returnsTo < e.time) := by
  rw [Made] at h
  cases hatt : e.before.attempt p e.time e.call with
  | error s =>
    rw [hatt] at h
    refine iff_of_true (fun s' hs' => ?_) fun hrej => ?_
    · rw [h] at hs'
      cases hs'
    · rw [Rejected] at hrej
      rw [attempt] at hatt
      cases hout : e.call.outcome <;> simp [hout] at hrej hatt
  | ok s =>
    rw [hatt] at h
    dsimp only at h
    rcases attempt_cases hatt with hacc | ⟨hrej, hsave⟩
    · refine iff_of_true (fun s' hs' => ?_) fun hrej => absurd hrej hacc.not_rejected
      rw [h] at hs'
      split at hs'
      · cases hs'
      · cases hs'
        exact hacc
    · rw [hsave] at h
      constructor
      · intro hall _
        by_contra hlate
        rw [if_neg hlate] at h
        exact (hall s h).not_rejected hrej
      · intro hearly s' hs'
        rw [h, if_pos (hearly hrej)] at hs'
        cases hs'

end Event

/-! ## Whole runs -/

section Runs

variable {K : Type} [Field K] [LinearOrder K] {p : Properties K}

theorem doWhile_made {time : K} : ∀ {calls : List (Call K)} {s : Solver K},
    ∀ e ∈ (doWhile p time calls s).1, e.Made p
  | [], s, e, he => nomatch he
  | call :: calls, s, e, he => by
    rw [doWhile] at he
    split at he
    case h_1 s' hatt =>
      obtain rfl := mem_singleton.mp he
      simp [Event.Made, hatt]
    case h_2 s' hatt =>
      split at he
      case isTrue hlt =>
        rcases mem_cons.mp he with rfl | he
        · simp [Event.Made, hatt, hlt]
        · exact doWhile_made e he
      case isFalse hlt =>
        obtain rfl := mem_singleton.mp he
        simp [Event.Made, hatt, hlt]

theorem solve_made : ∀ {times : List K} {calls : List (Call K)} {s : Solver K},
    ∀ e ∈ solve p times calls s, e.Made p
  | [], calls, s, e, he => nomatch he
  | time :: times, calls, s, e, he => by
    rcases mem_append.mp he with he | he
    · exact doWhile_made e he
    · split at he
      · exact solve_made e he
      · cases he
      · cases he

/-- **All saved solutions are accepted ones iff** every rejected call finds the
last accepted time before the requested one. -/
theorem solve_accepted_iff (p : Properties K) (times : List K) (calls : List (Call K))
    (s : Solver K) :
    (∀ e ∈ solve p times calls s, ∀ s', e.hit = some s' → e.Accepted p s') ↔
      ∀ e ∈ solve p times calls s, e.Rejected p → e.returnsTo < e.time :=
  forall₂_congr fun _ he => (solve_made _ he).accepted_iff

/-- At the first time point, a call that does not converge. -/
def firstCall : Call ℚ := ⟨[0], .noConvergence [7]⟩

theorem firstPoint_not_accepted :
    ¬∀ e ∈ solve ⟨1, 10, false, 2⟩ [0, 5] [firstCall] (Solver.start 20 [0] []),
      ∀ s', e.hit = some s' → e.Accepted ⟨1, 10, false, 2⟩ s' := by
  intro h
  have hrun : solve ⟨1, 10, false, 2⟩ [0, 5] [firstCall] (start 20 [0] []) =
      [⟨start 20 [0] [], 0, firstCall,
        some ((corrected (start 20 [0] []) [0] [7]).reduceStep ⟨1, 10, false, 2⟩)⟩] := by
    simp [solve, doWhile, attempt, firstCall, reduceStep_saveCurrent]
  rw [hrun] at h
  obtain ⟨n, hout, -⟩ := (h _ (mem_singleton_self _) _ rfl).outcome
  cases hout

end Runs

end Qucs.Transient
