/-
# Rejecting a step of a co-simulation

`interface/e_trsolver.cpp`, `history.cpp`. An external program
drives the transient solver: it asks for a solution at a later time, with the
loop of the transient analysis, and then accepts the step or rejects it.

* e_trsolver::stepsolve_async: `stepsolveAsync`; several calls: `stepsolves`
* e_trsolver::copySolution: an assignment of the eight vectors
* history::truncate, resize: `History.truncate`, `resize`
* e_trsolver::truncateHistory: `truncateCircuits`

A rejected step is meant to bring back the state at the last acceptance. The
eight solution vectors are stored and brought back by their place in memory, and
the time steps by their age; but every accepted call of the loop has moved the
rings on, those of the solver and those of the circuits, and nothing moves them
back. The time of the next call stays where it was. And a truncated history
keeps as many values as there are newer ones:

* the rings are as before: iff the number of accepted calls is a multiple of 8
* the time is as before: iff the moves of the clock add up to nothing
* the histories are as before: if there are none

`rejectstepAsync_restored_iff` has the first two, for circuits without histories.
With histories that have been kept in full so far, the step is never taken back:
`not_restored_of_histories`.
-/
import Qucs.Transient.Saves

namespace Qucs.Transient

open List Solver Event History

variable {K : Type} [Field K] [LinearOrder K]

/-! ## Truncated histories -/

/-- `std::vector::resize`. -/
def resize (n : ℕ) (l : List K) : List K := l.take n ++ List.replicate (n - l.length) 0

/-- The first time that is newer than `tcut`, from the left-most valid one on. Both
vectors are given the length that remains behind it. -/
def History.truncate (tcut : K) (t : List K) (h : History K) : List K × History K :=
  let i := h.leftidx t + ((t.drop (h.leftidx t)).takeWhile (· ≤ tcut)).length
  (resize (t.length - i) t, { h with values := resize (t.length - i) h.values })

def truncateHistories (tcut : K) :
    List K → List (Option ℕ × History K) → List K × List (Option ℕ × History K)
  | t, [] => (t, [])
  | t, (r, h) :: hs =>
    let (t, h) := h.truncate tcut t
    let (t, hs) := truncateHistories tcut t hs
    (t, (r, h) :: hs)

/-- The circuits share the time vector, so each of them truncates it. -/
def truncateCircuits (tcut : K) : List K → List (Circuit K) → List K × List (Circuit K)
  | t, [] => (t, [])
  | t, c :: cs =>
    let (t, hs) := truncateHistories tcut t c.histories
    let (t, cs) := truncateCircuits tcut t cs
    (t, { c with histories := hs } :: cs)

/-! ## The solver for co-simulations -/

structure AsyncSolver (K : Type) extends Solver K where
  time : K
  lastasynctime : K
  lastsolution : Fin 8 → List K
  lastdeltas : Fin 8 → K
  lastdelta : K
  initialhistages : List K

/-- The circuits that have histories, each with its first age. -/
def updateHistoryAges (newage : K) : List (Circuit K) → List K → List (Circuit K)
  | [], _ => []
  | c :: cs, ages =>
    if c.histories = [] then c :: updateHistoryAges newage cs ages
    else
      let age := max (ages.headD 0) newage
      { c with histories := c.histories.map fun (r, h) => (r, { h with age := age }) } ::
        updateHistoryAges newage cs ages.tail

namespace AsyncSolver

variable (p : Properties K) (s : AsyncSolver K)

/-- The calls are those that are made until the function returns. -/
def stepsolveAsync (steptime : K) (calls : List (Call K)) :
    Option (List (Event K) × AsyncSolver K) :=
  let s := { s with
    time := steptime
    circuits := updateHistoryAges (steptime - s.lastasynctime) s.circuits s.initialhistages }
  match doWhile p steptime calls s.toSolver with
  | (events, .hit s' []) => some (events, { s with toSolver := s' })
  | (events, .error s' []) => some (events, { s with toSolver := s' })
  | _ => none

/-- The state is saved. -/
def acceptstepAsync : AsyncSolver K :=
  { s with
    lastsolution := s.solution, lastasynctime := s.time
    lastdeltas := s.steps.saveState, lastdelta := s.delta }

/-- The saved state is taken back. -/
def rejectstepAsync : AsyncSolver K :=
  let (times, circuits) := truncateCircuits s.lastasynctime s.times s.circuits
  { s with
    solution := s.lastsolution, times := times, circuits := circuits
    steps := s.steps.inputState s.lastdeltas, deltas := s.lastdeltas, delta := s.lastdelta }

/-- Several steps, none of which is accepted. -/
def stepsolves : List (K × List (Call K)) → AsyncSolver K →
    Option (List (Event K) × AsyncSolver K)
  | [], s => some ([], s)
  | (steptime, calls) :: rest, s => do
      let (events, s) ← s.stepsolveAsync p steptime calls
      let (events', s) ← stepsolves rest s
      return (events ++ events', s)

end AsyncSolver

/-! ## What is meant -/

/-- The histories of each circuit, with the times of their values. -/
def Solver.componentHistories (s : Solver K) : List (List (List K × List K)) :=
  s.circuits.map fun c => c.histories.map fun h => (s.times, h.2.values)

/-- The state `s'` is that of `s` again. -/
structure Restored (s s' : Solver K) : Prop where
  solutions : ∀ n, s'.sol n = s.sol n
  steps : (∀ n, s'.steps.getState n = s.steps.getState n) ∧ s'.delta = s.delta
  current : s'.current = s.current
  position : s'.circuits.map Circuit.currentstate = s.circuits.map Circuit.currentstate
  histories : s'.componentHistories = s.componentHistories

/-- A rejected call takes its step back, except at the time 0. -/
def Solver.stepBack (s : Solver K) : K := if s.current > 0 then -s.delta else 0

theorem Solver.current_add_stepBack (s : Solver K) :
    (if s.current > 0 then s.current - s.delta else s.current) = s.current + s.stepBack := by
  rw [stepBack]
  split
  · exact sub_eq_add_neg _ _
  · exact (add_zero _).symm

@[simp]
theorem Solver.stepBack_corrected (s : Solver K) (prediction x : List K) :
    (s.corrected prediction x).stepBack = s.stepBack := rfl

namespace Event

variable (p : Properties K) (e : Event K)

def elapsed : K :=
  match e.call.outcome with
  | .noConvergence _ => e.before.stepBack +
      if e.before.current + e.before.stepBack > 0 then max (e.before.delta / 2) p.deltaMin else 0
  | .failed _ | .singular _ => 0
  | .solved _ n =>
    if e.accepts p then e.before.nextDelta p e.time n
    else e.before.stepBack + e.before.nextDelta p e.time n

end Event

/-! ## How far a call moves the solver -/

def shift (n : ℕ) (i : Fin 8) : Fin 8 := i - Fin.ofNat 8 n

theorem shift_shift (m n : ℕ) (i : Fin 8) : shift n (shift m i) = shift (m + n) i := by
  simp only [shift, Fin.ext_iff, Fin.sub_def, Fin.ofNat]
  omega

theorem shift_eq_self {n : ℕ} {i : Fin 8} : shift n i = i ↔ 8 ∣ n := by
  simp only [shift, Fin.ext_iff, Fin.sub_def, Fin.ofNat]
  omega

theorem shift_zero (i : Fin 8) : shift 0 i = i := shift_eq_self.mpr (Nat.dvd_zero 8)

/-- No circuit has a history. -/
def NoHistories {K : Type} (s : Solver K) : Prop := ∀ c ∈ s.circuits, c.histories = []

theorem NoHistories.componentHistories {K : Type} {s : Solver K} (h : NoHistories s) :
    s.componentHistories = s.circuits.map fun _ => [] :=
  map_congr_left fun c hc => by rw [h c hc, map_nil]

section Moved

variable {K : Type} [Field K] {m n : ℕ} {d d' : K} {s s' s'' : Solver K}

/-- From `s` to `s'` the rings move by `n` states and the clock by `d`. -/
structure Moved (n : ℕ) (d : K) (s s' : Solver K) : Prop where
  position : s'.steps.currentstate = shift n s.steps.currentstate
  circuits : s'.circuits = s.circuits.map fun c => { c with currentstate := shift n c.currentstate }
  current : s'.current = s.current + d

theorem Moved.of_current (hstate : s'.steps.currentstate = s.steps.currentstate)
    (hcircuits : s'.circuits = s.circuits) (hcurrent : s'.current = s.current + d) :
    Moved 0 d s s' := by
  refine ⟨hstate.trans (shift_zero _).symm, ?_, hcurrent⟩
  simp [shift_zero, hcircuits]

theorem Moved.trans (h : Moved m d s s') (h' : Moved n d' s' s'') :
    Moved (m + n) (d + d') s s'' := by
  constructor
  case position => rw [h'.position, h.position, shift_shift]
  case circuits =>
    rw [h'.circuits, h.circuits, map_map]
    exact map_congr_left fun c _ => by simp [shift_shift]
  case current => rw [h'.current, h.current, add_assoc]

theorem Moved.noHistories (h : Moved n d s s') (hnone : NoHistories s) : NoHistories s' := by
  intro c hc
  rw [h.circuits] at hc
  obtain ⟨c', hc', rfl⟩ := mem_map.mp hc
  exact hnone c' hc'

end Moved

theorem map_saveHistory {cs : List (Circuit K)} (h : ∀ c ∈ cs, c.histories = []) (t x : List K) :
    cs.map (fun c => c.saveHistory t x) = cs := by
  refine (map_congr_left fun c hc => ?_).trans (map_id cs)
  rw [Circuit.saveHistory, h c hc]
  exact congrArg (Circuit.mk c.currentstate) (h c hc).symm

theorem NoHistories.advance {s : Solver K} (h : NoHistories s) :
    s.advance.circuits = s.circuits := by
  rw [Solver.advance]
  split
  · rw [Solver.updateHistory]
    split
    · exact map_saveHistory h _ _
    · rfl
  · exact map_saveHistory h _ _

section Attempt

variable {p : Properties K} {e : Event K} {s s' : Solver K}

theorem moved_reduceStep : Moved 0 (s.stepBack +
    if s.current + s.stepBack > 0 then max (s.delta / 2) p.deltaMin else 0) s (s.reduceStep p) := by
  obtain ⟨o, h⟩ := reduceStep_eq (s := s)
  rw [h]
  refine Moved.of_current rfl rfl ?_
  rw [s.current_add_stepBack]
  split
  · rw [add_assoc]
  · rw [add_zero]

theorem moved_judge (hnone : NoHistories s) (time n : K) :
    Moved (if s.running ≤ 1 ∨ s.passes p time n then 1 else 0)
      (if s.running ≤ 1 ∨ s.passes p time n then s.nextDelta p time n
        else s.stepBack + s.nextDelta p time n) s (s.judge p time n).advance := by
  rcases judge_cases p s time n with
    ⟨hpass, o, stepDelta, hjudge⟩ | ⟨hpass, o, stepDelta, hjudge⟩
  · have haccept := (le_or_gt s.running 1).imp_right hpass
    have hnone' : NoHistories s.nextStates := by
      intro c hc
      obtain ⟨c', hc', rfl⟩ := mem_map.mp hc
      exact hnone c' hc'
    rw [if_pos haccept, if_pos haccept, hjudge]
    constructor
    case position =>
      rw [advance_steps]
      rfl
    case circuits =>
      refine (NoHistories.advance ?_).trans rfl
      exact hnone'
    case current => simp
  · have hreject := not_or.mpr ⟨hpass.1.not_ge, hpass.2⟩
    rw [if_neg hreject, if_neg hreject, hjudge]
    refine Moved.of_current ?_ ?_ ?_
    · rw [advance_steps]
    · refine (NoHistories.advance ?_).trans rfl
      exact hnone
    · rw [advance_current]
      rw [s.current_add_stepBack, add_assoc]

/-- **One call** moves the rings if it is accepted. -/
theorem attempt_moved (hnone : NoHistories e.before)
    (h : e.before.attempt p e.time e.call = .ok s ∨ e.before.attempt p e.time e.call = .error s) :
    Moved (if e.accepts p then 1 else 0) (e.elapsed p) e.before s := by
  have hcorrected : ∀ prediction x, Moved 0 0 e.before (e.before.corrected prediction x) :=
    fun _ _ => Moved.of_current rfl rfl (add_zero _).symm
  rw [attempt] at h
  cases hout : e.call.outcome with
  | noConvergence x =>
    simp only [hout, Except.ok.injEq, reduceCtorEq, or_false] at h
    subst h
    simpa [accepts, elapsed, hout] using (hcorrected e.call.prediction x).trans (moved_reduceStep)
  | failed x =>
    simp only [hout, Except.error.injEq, reduceCtorEq, false_or] at h
    subst h
    simpa [accepts, elapsed, hout] using hcorrected e.call.prediction x
  | singular x =>
    simp only [hout, Except.error.injEq, reduceCtorEq, false_or] at h
    subst h
    simpa [accepts, elapsed, hout] using hcorrected e.call.prediction x
  | solved x n =>
    simp only [hout, Except.ok.injEq, reduceCtorEq, or_false] at h
    subst h
    simpa [accepts, elapsed, hout] using (hcorrected e.call.prediction x).trans
      (moved_judge ((hcorrected e.call.prediction x).noHistories hnone) e.time n)

end Attempt

/-! ## How far the steps move it -/

section Runs

variable {p : Properties K}

def Exit.solver {K : Type} : Exit K → Solver K
  | .waiting s | .error s _ | .hit s _ => s

def accepted (p : Properties K) (events : List (Event K)) : ℕ := events.countP (·.accepts p)

def elapsed (p : Properties K) (events : List (Event K)) : K := (events.map (·.elapsed p)).sum

theorem accepted_cons (e : Event K) (events : List (Event K)) :
    accepted p (e :: events) = (if e.accepts p then 1 else 0) + accepted p events := by
  rw [accepted, countP_cons, add_comm, accepted]

theorem elapsed_cons (e : Event K) (events : List (Event K)) :
    elapsed p (e :: events) = e.elapsed p + elapsed p events := by
  rw [elapsed, map_cons, sum_cons, elapsed]

theorem doWhile_moved (p : Properties K) (time : K) : ∀ (calls : List (Call K)) {s : Solver K},
    NoHistories s → Moved (accepted p (doWhile p time calls s).1)
      (elapsed p (doWhile p time calls s).1) s (doWhile p time calls s).2.solver
  | [], s, _ => Moved.of_current rfl rfl (add_zero _).symm
  | call :: calls, s, hnone => by
    rw [doWhile]
    split
    case h_1 s' hatt =>
      simpa [accepted, elapsed, countP_cons, Exit.solver] using attempt_moved hnone (.inr hatt)
    case h_2 s' hatt =>
      have hone : ∀ hit, Moved (if accepts p ⟨s, time, call, hit⟩ then 1 else 0)
          (Event.elapsed p ⟨s, time, call, hit⟩) s s' := fun hit =>
        attempt_moved hnone (.inl hatt)
      split
      case isTrue hlt =>
        rw [accepted_cons, elapsed_cons]
        exact (hone none).trans (doWhile_moved p time calls ((hone none).noHistories hnone))
      case isFalse hlt =>
        simpa [accepted, elapsed, countP_cons, Exit.solver] using hone (some s')

theorem updateHistoryAges_eq (newage : K) : ∀ {cs : List (Circuit K)} (ages : List K),
    (∀ c ∈ cs, c.histories = []) → updateHistoryAges newage cs ages = cs
  | [], _, _ => rfl
  | c :: cs, ages, h => by
    rw [updateHistoryAges, if_pos (h c mem_cons_self),
      updateHistoryAges_eq newage ages fun c hc => h c (mem_cons_of_mem _ hc)]

variable {s s' : AsyncSolver K} {events : List (Event K)}

variable {steptime : K} {calls : List (Call K)}

/-- What was stored at the last acceptance stays. -/
theorem stepsolveAsync_kept (h : s.stepsolveAsync p steptime calls = some (events, s')) :
    s' = { s with toSolver := s'.toSolver, time := steptime } := by
  rw [AsyncSolver.stepsolveAsync] at h
  split at h
  · cases h
    rfl
  · cases h
    rfl
  · cases h

theorem stepsolveAsync_moved (hnone : NoHistories s.toSolver)
    (h : s.stepsolveAsync p steptime calls = some (events, s')) :
    Moved (accepted p events) (elapsed p events) s.toSolver s'.toSolver := by
  rw [AsyncSolver.stepsolveAsync] at h
  rw [updateHistoryAges_eq _ _ hnone] at h
  have hmoved := doWhile_moved p steptime calls hnone
  split at h
  case h_1 s₁ heq =>
    cases h
    rwa [heq] at hmoved
  case h_2 s₁ heq =>
    cases h
    rwa [heq] at hmoved
  case h_3 => cases h

theorem stepsolves_cons {runs : List (K × List (Call K))}
    (h : AsyncSolver.stepsolves p ((steptime, calls) :: runs) s = some (events, s')) :
    ∃ events₁ s₁ events₂, s.stepsolveAsync p steptime calls = some (events₁, s₁) ∧
      AsyncSolver.stepsolves p runs s₁ = some (events₂, s') ∧ events = events₁ ++ events₂ := by
  simp only [AsyncSolver.stepsolves, Option.bind_eq_bind, Option.bind_eq_some_iff,
    Option.pure_def, Option.some.injEq, Prod.mk.injEq] at h
  obtain ⟨⟨events₁, s₁⟩, hstep, ⟨events₂, s₂⟩, hrest, rfl, rfl⟩ := h
  exact ⟨events₁, s₁, events₂, hstep, hrest, rfl⟩

theorem stepsolves_kept : ∀ {runs : List (K × List (Call K))} {s s' : AsyncSolver K}
    {events : List (Event K)}, AsyncSolver.stepsolves p runs s = some (events, s') →
      ∃ t, s' = { s with toSolver := s'.toSolver, time := t }
  | [], s, s', events, h => by
    cases h
    exact ⟨_, rfl⟩
  | (steptime, calls) :: runs, s, s', events, h => by
    obtain ⟨events₁, s₁, events₂, hstep, hrest, -⟩ := stepsolves_cons h
    obtain ⟨t, hs'⟩ := stepsolves_kept hrest
    rw [stepsolveAsync_kept hstep] at hs'
    exact ⟨t, hs'⟩

theorem stepsolves_moved : ∀ {runs : List (K × List (Call K))} {s s' : AsyncSolver K}
    {events : List (Event K)}, NoHistories s.toSolver →
    AsyncSolver.stepsolves p runs s = some (events, s') →
      Moved (accepted p events) (elapsed p events) s.toSolver s'.toSolver
  | [], s, s', events, _, h => by
    cases h
    exact Moved.of_current rfl rfl (add_zero _).symm
  | (steptime, calls) :: runs, s, s', events, hnone, h => by
    obtain ⟨events₁, s₁, events₂, hstep, hrest, rfl⟩ := stepsolves_cons h
    have hmoved := stepsolveAsync_moved hnone hstep
    have hsum := hmoved.trans (stepsolves_moved (hmoved.noHistories hnone) hrest)
    rw [accepted, elapsed, countP_append, map_append, sum_append]
    exact hsum

end Runs

/-! ## Rejected steps -/

def atRest : AsyncSolver ℚ where
  toSolver := Solver.start 20 [0] [⟨0, []⟩]
  time := 0
  lastasynctime := 0
  lastsolution := fun _ => [0]
  lastdeltas := fun _ => 20
  lastdelta := 20
  initialhistages := []

section Reject

variable {p : Properties K} {s s' : AsyncSolver K} {events : List (Event K)}

theorem States.getState_inputState {α : Type} (s : States α) (values : Fin 8 → α) (n : Fin 8) :
    (s.inputState values).getState n = values n := by
  have hback : ∀ n i : Fin 8, n + i - i = n := by decide
  exact congrArg values (hback n s.currentstate)

theorem truncateCircuits_eq (tcut : K) : ∀ {cs : List (Circuit K)} (t : List K),
    (∀ c ∈ cs, c.histories = []) → truncateCircuits tcut t cs = (t, cs)
  | [], _, _ => rfl
  | c :: cs, t, h => by
    have hc := h c mem_cons_self
    rw [truncateCircuits, hc, truncateHistories]
    dsimp only
    rw [truncateCircuits_eq tcut t fun c hc => h c (mem_cons_of_mem _ hc)]
    exact congrArg (fun hs => (t, Circuit.mk c.currentstate hs :: cs)) hc.symm

theorem NoHistories.rejectstepAsync (h : NoHistories s.toSolver) :
    s.rejectstepAsync.toSolver = { s.toSolver with
      solution := s.lastsolution, steps := s.steps.inputState s.lastdeltas
      deltas := s.lastdeltas, delta := s.lastdelta } := by
  rw [AsyncSolver.rejectstepAsync, truncateCircuits_eq _ _ h]

/-- **A rejected step is taken back iff** the accepted calls in it are a multiple
of eight, and its moves of the clock add up to nothing. -/
theorem rejectstepAsync_restored_iff (runs : List (K × List (Call K)))
    (hrun : AsyncSolver.stepsolves p runs s.acceptstepAsync = some (events, s'))
    (hnone : NoHistories s.toSolver) (hcircuits : s.circuits ≠ []) :
    Restored s.acceptstepAsync.toSolver s'.rejectstepAsync.toSolver ↔
      8 ∣ accepted p events ∧ elapsed p events = 0 := by
  obtain ⟨t, hs'⟩ := stepsolves_kept hrun
  have hmoved := stepsolves_moved (s := s.acceptstepAsync) hnone hrun
  have hnone' := hmoved.noHistories hnone
  rw [hnone'.rejectstepAsync]
  constructor
  · intro h
    constructor
    · obtain ⟨c, cs, hc⟩ := exists_cons_of_ne_nil hcircuits
      have hposition := h.position
      rw [hmoved.circuits, show s.acceptstepAsync.circuits = c :: cs from hc] at hposition
      exact shift_eq_self.mp (cons.inj hposition).1
    · have hcurrent := h.current
      rwa [hmoved.current, add_eq_left] at hcurrent
  · rintro ⟨hdvd, hzero⟩
    have hcircuits' : s'.circuits = s.circuits := by
      rw [hmoved.circuits]
      refine (map_congr_left fun c _ => ?_).trans (map_id _)
      rw [shift_eq_self.mpr hdvd]
      rfl
    constructor
    case solutions =>
      intro n
      show s'.lastsolution (n + s'.steps.currentstate) = s.solution (n + s.steps.currentstate)
      rw [hmoved.position, shift_eq_self.mpr hdvd, hs']
      rfl
    case steps =>
      rw [hs']
      exact ⟨fun n => States.getState_inputState _ _ n, rfl⟩
    case current => exact hmoved.current.trans (by rw [hzero, add_zero])
    case position => exact congrArg (map Circuit.currentstate) hcircuits'
    case histories =>
      have hempty : NoHistories { s'.toSolver with
          solution := s'.lastsolution, steps := s'.steps.inputState s'.lastdeltas
          deltas := s'.lastdeltas, delta := s'.lastdelta } := hnone'
      have hempty' : NoHistories s.acceptstepAsync.toSolver := hnone
      rw [hempty.componentHistories, hempty'.componentHistories]
      exact congrArg (map fun _ => []) hcircuits'

/-- After an error of the solver the step can be taken back. -/
theorem rejectstepAsync_failed :
    ∃ events, ∃ s', AsyncSolver.stepsolves ⟨1, 10, false, 2⟩
        [(5, [⟨[0], .failed [7]⟩])] atRest.acceptstepAsync = some (events, s') ∧
      Restored atRest.acceptstepAsync.toSolver s'.rejectstepAsync.toSolver := by
  refine ⟨_, _, rfl, ?_⟩
  refine (rejectstepAsync_restored_iff (p := ⟨1, 10, false, 2⟩)
    [(5, [⟨[0], .failed [7]⟩])] rfl ?_ ?_).mpr ⟨⟨0, rfl⟩, ?_⟩
  · intro c hc
    rw [mem_singleton.mp hc]
  · exact cons_ne_nil _ _
  · simp [elapsed, Event.elapsed]

/-- After a solution it cannot: the ring of the circuit has moved on. -/
theorem rejectstepAsync_solved_not_restored :
    ∃ events, ∃ s', AsyncSolver.stepsolves ⟨1, 10, false, 2⟩
        [(0, [⟨[0], .solved [7] 1⟩])] atRest.acceptstepAsync = some (events, s') ∧
      ¬Restored atRest.acceptstepAsync.toSolver s'.rejectstepAsync.toSolver :=
  ⟨_, _, rfl, fun h => absurd h.position (by decide)⟩

end Reject

/-! ## Histories are not taken back -/

theorem resize_of_le {K : Type} [Field K] {n : ℕ} {l : List K} (h : n ≤ l.length) :
    resize n l = l.take n := by
  rw [resize, Nat.sub_eq_zero_of_le h, replicate_zero, append_nil]

theorem length_resize {K : Type} [Field K] (n : ℕ) (l : List K) : (resize n l).length = n := by
  rw [resize, length_append, length_take, length_replicate]
  omega

section Histories

variable {tcut : K} {t : List K}

theorem head?_of_isPrefix {α : Type} {l l' : List α} {a : α} (h : l <+: l')
    (ha : l.head? = some a) : l'.head? = some a := by
  obtain ⟨rest, rfl⟩ := h
  rw [head?_append, ha]
  rfl

/-- The time vector is cut, and the values get its new length. -/
theorem History.truncate_spec (h : History K) : (h.truncate tcut t).1 <+: t ∧
    (h.truncate tcut t).2.values.length = (h.truncate tcut t).1.length := by
  rw [truncate]
  rw [length_resize, length_resize, resize_of_le (Nat.sub_le _ _)]
  exact ⟨⟨_, take_append_drop _ _⟩, rfl⟩

variable {a : K}

/-- Unless its first time is newer, the vector gets shorter. -/
theorem History.length_truncate_lt (h : History K) (hhead : t.head? = some a)
    (ha : a ≤ tcut) : (h.truncate tcut t).1.length < t.length := by
  obtain ⟨rest, rfl⟩ := head?_eq_some_iff.mp hhead
  rw [truncate, length_resize]
  have hpos : 0 < h.leftidx (a :: rest) +
      (((a :: rest).drop (h.leftidx (a :: rest))).takeWhile (· ≤ tcut)).length := by
    rcases Nat.eq_zero_or_pos (h.leftidx (a :: rest)) with hleft | hleft
    · simp [hleft, ha]
    · omega
  exact Nat.sub_lt (Nat.succ_pos _) hpos

theorem isPrefix_truncateHistories : ∀ (hs : List (Option ℕ × History K)) (t : List K),
    (truncateHistories tcut t hs).1 <+: t
  | [], _ => prefix_rfl
  | (_, h) :: hs, _ => (isPrefix_truncateHistories hs _).trans (truncate_spec h).1

theorem length_truncateHistories : ∀ (hs : List (Option ℕ × History K)) (t : List K),
    (truncateHistories tcut t hs).2.length = hs.length
  | [], _ => rfl
  | _ :: hs, _ => congrArg Nat.succ (length_truncateHistories hs _)

theorem isPrefix_truncateCircuits : ∀ (cs : List (Circuit K)) (t : List K),
    (truncateCircuits tcut t cs).1 <+: t
  | [], _ => prefix_rfl
  | c :: cs, t => (isPrefix_truncateCircuits cs _).trans (isPrefix_truncateHistories c.histories t)

/-- Two histories of one length after the other: the second has cut the vector of the
first, unless its times are all newer. -/
theorem truncateHistories_two {n : ℕ} {h₁ h₂ : Option ℕ × History K}
    {hs : List (Option ℕ × History K)}
    (hlen : ∀ h ∈ (truncateHistories tcut t (h₁ :: h₂ :: hs)).2, h.2.values.length = n)
    (hhead : (truncateHistories tcut t (h₁ :: h₂ :: hs)).1.head? = some a) : ¬a ≤ tcut := by
  intro ha
  obtain ⟨r₁, h₁⟩ := h₁
  obtain ⟨r₂, h₂⟩ := h₂
  have hone := hlen (r₁, (h₁.truncate tcut t).2) mem_cons_self
  have htwo := hlen (r₂, (h₂.truncate tcut (h₁.truncate tcut t).1).2)
    (mem_cons_of_mem _ mem_cons_self)
  rw [(truncate_spec h₁).2] at hone
  rw [(truncate_spec h₂).2] at htwo
  have hcut : (truncateHistories tcut t ((r₁, h₁) :: (r₂, h₂) :: hs)).1 <+:
      (h₁.truncate tcut t).1 := isPrefix_truncateHistories ((r₂, h₂) :: hs) _
  have hlt := length_truncate_lt h₂ (head?_of_isPrefix hcut hhead) ha
  omega

theorem truncateCircuits_two {n : ℕ} : ∀ {cs : List (Circuit K)} {t : List K},
    (∀ c ∈ (truncateCircuits tcut t cs).2, ∀ h ∈ c.histories, h.2.values.length = n) →
    (∃ c ∈ (truncateCircuits tcut t cs).2, 2 ≤ c.histories.length) →
    (truncateCircuits tcut t cs).1.head? = some a → ¬a ≤ tcut
  | [], t, _, ⟨c, hc, _⟩, _ => nomatch hc
  | c :: cs, t, hlen, ⟨c', hc', htwo⟩, hhead => by
    rcases mem_cons.mp hc' with rfl | hc'
    · have hlen' := hlen _ mem_cons_self
      have hhead' := head?_of_isPrefix (isPrefix_truncateCircuits cs _) hhead
      rw [length_truncateHistories] at htwo
      match hhs : c.histories with
      | h₁ :: h₂ :: hs =>
        rw [hhs] at hlen' hhead'
        exact truncateHistories_two hlen' hhead'
      | [] | [_] => simp [hhs] at htwo
    · exact truncateCircuits_two (fun c hc => hlen c (mem_cons_of_mem _ hc)) ⟨c', hc', htwo⟩ hhead

/-- **The histories are never as before** if a circuit has two of them, and all values
since the first time point have been kept until the acceptance. -/
theorem not_restored_of_histories {p : Properties K} {s s' : AsyncSolver K}
    {events : List (Event K)} (runs : List (K × List (Call K)))
    (hrun : AsyncSolver.stepsolves p runs s.acceptstepAsync = some (events, s'))
    (hhead : s.times.head? = some a) (ha : a ≤ s.time)
    (hlen : ∀ c ∈ s.circuits, ∀ h ∈ c.histories, h.2.values.length = s.times.length)
    (htwo : ∃ c ∈ s.circuits, 2 ≤ c.histories.length) :
    s'.rejectstepAsync.componentHistories ≠ s.acceptstepAsync.componentHistories := by
  intro h
  obtain ⟨t, hs'⟩ := stepsolves_kept hrun
  have hcut : s'.lastasynctime = s.time := by rw [hs']; rfl
  have hold : ∀ c ∈ s'.rejectstepAsync.circuits, ∀ h ∈ c.histories,
      s'.rejectstepAsync.times = s.times ∧ h.2.values.length = s.times.length := by
    intro c hc h₁ hh₁
    have hmem : c.histories.map (fun h => (s'.rejectstepAsync.times, h.2.values)) ∈
        s.toSolver.componentHistories := h ▸ mem_map.mpr ⟨c, hc, rfl⟩
    obtain ⟨c₀, hc₀, heq⟩ := mem_map.mp hmem
    have hmem₁ : (s'.rejectstepAsync.times, h₁.2.values) ∈
        c₀.histories.map fun h => (s.times, h.2.values) :=
      heq ▸ mem_map.mpr ⟨h₁, hh₁, rfl⟩
    obtain ⟨h₀, hh₀, heq₀⟩ := mem_map.mp hmem₁
    rw [Prod.mk.injEq] at heq₀
    exact ⟨heq₀.1.symm, heq₀.2 ▸ hlen c₀ hc₀ h₀ hh₀⟩
  have htwo' : ∃ c ∈ s'.rejectstepAsync.circuits, 2 ≤ c.histories.length := by
    obtain ⟨c₀, hc₀, hle⟩ := htwo
    have hmem : c₀.histories.map (fun h => (s.times, h.2.values)) ∈
        s'.rejectstepAsync.toSolver.componentHistories :=
      h.symm ▸ mem_map.mpr ⟨c₀, hc₀, rfl⟩
    obtain ⟨c, hc, heq⟩ := mem_map.mp hmem
    refine ⟨c, hc, ?_⟩
    have hlength := congrArg length heq
    rw [length_map, length_map] at hlength
    omega
  have htimes : s'.rejectstepAsync.times = s.times := by
    obtain ⟨c, hc, hle⟩ := htwo'
    obtain ⟨h₁, hh₁⟩ := exists_mem_of_length_pos (Nat.zero_lt_of_lt hle)
    exact (hold c hc h₁ hh₁).1
  have hhead' := (congrArg head? htimes).trans hhead
  exact truncateCircuits_two (fun c hc h hh => (hold c hc h hh).2) htwo' hhead' (hcut ▸ ha)

def twoHistories : AsyncSolver ℚ :=
  { atRest with circuits := [⟨0, [(none, ⟨0, [0]⟩), (none, ⟨0, [0]⟩)]⟩], times := [0] }

/-- One step to the time 1, in two calls. -/
theorem not_restored_twoHistories :
    ∃ events, ∃ s', AsyncSolver.stepsolves ⟨1, 10, false, 2⟩
        [(1, [⟨[0], .solved [7] 1⟩, ⟨[0], .solved [8] 1⟩])] twoHistories.acceptstepAsync =
          some (events, s') ∧
      s'.rejectstepAsync.componentHistories ≠ twoHistories.acceptstepAsync.componentHistories := by
  have hreturns : (AsyncSolver.stepsolves ⟨1, 10, false, 2⟩
      [(1, [⟨[0], .solved [7] 1⟩, ⟨[0], .solved [8] 1⟩])]
        twoHistories.acceptstepAsync).isSome := by decide +kernel
  obtain ⟨⟨events, s'⟩, hrun⟩ := Option.isSome_iff_exists.mp hreturns
  exact ⟨events, s', hrun, not_restored_of_histories _ hrun rfl le_rfl
    (by simp [twoHistories]) ⟨_, List.mem_cons_self, le_rfl⟩⟩

end Histories

end Qucs.Transient
