/-
# gMin stepping and source stepping

Where plain Newton iterations do not converge the nodal analysis solver takes an
easier circuit first and changes it step by step into the one that was asked for.
gMin stepping starts with a resistance at every node and takes it away; source
stepping starts with all sources at zero and turns them on. A step that fails is
tried again from the last value that worked, but smaller.

* the inner do-while loop: `solving`
* the body of the outer loop: `gMinRound`, `sourceRound`

What one solution of the equations does to the circuits, and whether two of them in
a row are close, is not looked into: `Analysis` has these as functions of a state of
the circuits, so that a run may meet any outcomes in any order. Numbers are exact.
The outer loops are `rounds` with a limit of their own, as nothing in the source
bounds them.
-/
import Mathlib
import Qucs.Lib.Loop

namespace Qucs.Nonlinear

open Lib.Loop

variable {σ : Type*}

/-- The members of the solver that the steppers set and a solution reads. -/
structure Members where
  gMin : ℚ
  srcFactor : ℚ
  updateMatrix : Bool
  fixpoint : Bool
  deriving DecidableEq, Repr

/-- What the solver does to the circuits, with their equations and vectors. -/
structure Analysis (σ : Type*) where
  desc : String
  /-- `solve_once`: whether there was an error, and the circuits after it. -/
  solveOnce : Members → σ → Bool × σ
  checkConvergence : σ → Bool
  savePreviousIteration : σ → σ
  restorePreviousIteration : σ → σ
  saveSolution : σ → σ
  setSrcFactor : ℚ → σ → σ

/-- The solver object: its members, its circuits, and the texts of the exceptions
`EXCEPTION_NO_CONVERGENCE` it has thrown, the last one in front. -/
structure Solver (σ : Type*) extends Members where
  net : σ
  iterations : ℕ
  thrown : List String

/-- `numeric_limits<nr_double_t>::epsilon`. -/
def epsilon : ℚ := 1 / 2 ^ 52

theorem epsilon_pos : 0 < epsilon := by norm_num [epsilon]

/-! ## The inner loop -/

structure Inner (σ : Type*) where
  error : Bool
  convergence : Bool
  run : ℕ
  net : σ

variable (a : Analysis σ)

/-- Solutions until two in a row are close, one fails, or the limit is reached;
`before` is what is done to the circuits before each of them. -/
def solving (a : Analysis σ) (before : σ → σ) (MaxIterations : ℤ) (m : Members) (run : ℕ)
    (net : σ) : Inner σ :=
  match a.solveOnce m (before net) with
  | (true, net) => ⟨true, false, run, net⟩
  | (false, net) =>
    let convergence := decide (0 < run) && a.checkConvergence net
    if convergence = false ∧ (run + 1 : ℕ) < MaxIterations then
      solving a before MaxIterations m (run + 1) (a.savePreviousIteration net)
    else ⟨false, convergence, run + 1, a.savePreviousIteration net⟩
termination_by (MaxIterations - run).toNat
decreasing_by omega

/-- The loop ended with two solutions in a row that are close. -/
def Inner.converged (i : Inner σ) : Prop := i.error = false ∧ i.convergence

/-- Below the limit there is an error or convergence. -/
theorem solving_converged (before : σ → σ) (MaxIterations : ℤ) (m : Members)
    (run : ℕ) (net : σ) :
    (solving a before MaxIterations m run net).error = false →
      (solving a before MaxIterations m run net).run < MaxIterations →
      (solving a before MaxIterations m run net).converged := by
  fun_induction solving a before MaxIterations m run net with
  | case1 run net net' hstep => intro herror; cases herror
  | case2 run net net' hstep convergence hgo ih => exact ih
  | case3 run net net' hstep convergence hstop =>
    intro _ hrun
    refine ⟨rfl, ?_⟩
    by_contra hno
    exact hstop ⟨Bool.not_eq_true _ ▸ hno, hrun⟩

/-! ## gMin stepping -/

/-- The solver in the loop, with the local variables that a round passes on. -/
structure GMinStep (σ : Type*) where
  solver : Solver σ
  gPrev : ℚ
  gStep : ℚ

variable (MaxIterations : ℤ)

def GMinStep.inner (s : GMinStep σ) : Inner σ :=
  solving a id MaxIterations s.solver.toMembers 0 s.solver.net

def gMinRound (s : GMinStep σ) :
    Bool × Solver σ ⊕ GMinStep σ :=
  let i := s.inner a MaxIterations
  let solver := { s.solver with net := i.net, iterations := s.solver.iterations + i.run }
  -- not yet converged, so decreased the gMin-step
  if MaxIterations ≤ i.run ∨ i.error = true then
    let gStep := s.gStep / 2
    if gStep < epsilon then
      let text := "no convergence in " ++ a.desc ++ " analysis after " ++
        toString solver.iterations ++ " gMinStepping iterations"
      .inl (true, { solver with thrown := text :: solver.thrown })
    else
      let solver := { solver with gMin := max (s.gPrev - gStep) 0 }
      if 0 < s.gPrev then .inr ⟨solver, s.gPrev, gStep⟩ else .inl (i.error, solver)
  -- converged, increased the gMin-step
  else
    let gPrev := solver.gMin
    let solver := { solver with gMin := max (solver.gMin - s.gStep) 0 }
    if 0 < gPrev then .inr ⟨solver, gPrev, s.gStep * 2⟩ else .inl (i.error, solver)

def gMinStart (s : Solver σ) : GMinStep σ :=
  let gPrev : ℚ := 1 / 100
  let gStep := gPrev / 100
  { solver := { s with updateMatrix := true, fixpoint := false, gMin := gPrev - gStep },
    gPrev, gStep }

/-- At most `fuel` rounds; `maxIter` is the property `MaxIter`. -/
def solveNonlinearContinuationGMin (maxIter : ℤ) (fuel : ℕ) (s : Solver σ) :
    Bool × Solver σ ⊕ GMinStep σ :=
  rounds (gMinRound a (maxIter.tdiv 4 + 1)) fuel (gMinStart s)

/-! ## Source stepping -/

structure SourceStep (σ : Type*) where
  solver : Solver σ
  sPrev : ℚ
  sStep : ℚ

def SourceStep.inner (s : SourceStep σ) : Inner σ :=
  solving a (a.setSrcFactor s.solver.srcFactor) MaxIterations s.solver.toMembers 0 s.solver.net

/-- The sources are at full strength again, whatever came before. -/
def sourceEnd (error : Bool) (s : Solver σ) : Bool × Solver σ :=
  (error, { s with net := a.setSrcFactor 1 s.net })

/-- The step after a round that did not converge. -/
def reducedStep (error : Bool) (sStep : ℚ) : ℚ :=
  if error then sStep * (1 / 10) else sStep * (1 / 2)

def sourceRound (s : SourceStep σ) :
    Bool × Solver σ ⊕ SourceStep σ :=
  let i := s.inner a MaxIterations
  let solver := { s.solver with net := i.net, iterations := s.solver.iterations + i.run }
  -- not yet converged, so decreased the source-step
  if MaxIterations ≤ i.run ∨ i.error = true then
    let sStep := reducedStep i.error s.sStep
    let solver := { solver with net := a.saveSolution (a.restorePreviousIteration solver.net) }
    if sStep < epsilon then
      let text := "no convergence in " ++ a.desc ++ " analysis after " ++
        toString solver.iterations ++ " sourceStepping iterations"
      .inl (sourceEnd a true { solver with thrown := text :: solver.thrown })
    else
      let solver := { solver with srcFactor := min (s.sPrev + sStep) 1 }
      if s.sPrev < 1 then .inr ⟨solver, s.sPrev, sStep⟩ else .inl (sourceEnd a i.error solver)
  -- converged, increased the source-step
  else if i.run < MaxIterations.tdiv 4 then
    let sPrev := solver.srcFactor
    let solver := { solver with srcFactor := min (solver.srcFactor + s.sStep) 1 }
    if sPrev < 1 then .inr ⟨solver, sPrev, s.sStep * (3 / 2)⟩
    else .inl (sourceEnd a i.error solver)
  else
    let solver := { solver with srcFactor := min (solver.srcFactor + s.sStep) 1 }
    if s.sPrev < 1 then .inr ⟨solver, s.sPrev, s.sStep⟩ else .inl (sourceEnd a i.error solver)

def sourceStart (s : Solver σ) : SourceStep σ :=
  let sPrev : ℚ := 0
  let sStep : ℚ := 1 / 100
  { solver := { s with updateMatrix := true, fixpoint := false, srcFactor := sPrev + sStep }
    sPrev, sStep }

/-- `solve_nonlinear_continuation_Source`. -/
def solveNonlinearContinuationSource (maxIter : ℤ) (fuel : ℕ) (s : Solver σ) :
    Bool × Solver σ ⊕ SourceStep σ :=
  rounds (sourceRound a (maxIter.tdiv 4 + 1)) fuel (sourceStart s)

/-! ## The measure

A step that fails is halved, and one that is too small ends the loop; a step that
succeeds moves on by half the least step at least, and at most doubles the next
one. -/

/-- How often a step can be halved before it is too small. -/
def halvings (step : ℚ) : ℕ := Nat.log 2 ⌊step / epsilon⌋₊

theorem halvings_half (step : ℚ) : halvings (step / 2) = halvings step - 1 := by
  rw [halvings, halvings, ← Nat.log_div_base, div_right_comm]
  congr 1
  exact Nat.floor_div_ofNat (step / epsilon) 2

theorem halvings_mono {step step' : ℚ} (h : step ≤ step') : halvings step ≤ halvings step' := by
  apply Nat.log_mono_right
  apply Nat.floor_mono
  exact div_le_div_of_nonneg_right h epsilon_pos.le

theorem halvings_lt {step step' : ℚ} (h : step' ≤ step / 2) (hstep : epsilon ≤ step') :
    halvings step' < halvings step := by
  have htwo : 2 ≤ ⌊step / epsilon⌋₊ := by
    refine Nat.le_floor ?_
    rw [le_div_iff₀ epsilon_pos]
    push_cast
    linarith
  have hpos : 0 < halvings step := Nat.log_pos one_lt_two htwo
  have hle := halvings_mono h
  rw [halvings_half] at hle
  omega

theorem halvings_le_succ {step step' : ℚ} (h : step' ≤ step * 2) :
    halvings step' ≤ halvings step + 1 := by
  have hle := halvings_mono (show step' / 2 ≤ step by linarith)
  rw [halvings_half] at hle
  omega

/-- How many steps of half the least size fit into a distance. -/
def halfSteps (x : ℚ) : ℕ := ⌈x * 2 / epsilon⌉₊

theorem halfSteps_lt {x x' : ℚ} (hx : 0 ≤ x') (h : x' + epsilon / 2 ≤ x) :
    halfSteps x' < halfSteps x := by
  have hmul : x' * 2 / epsilon + 1 ≤ x * 2 / epsilon := by
    rw [div_add_one epsilon_pos.ne']
    refine div_le_div_of_nonneg_right ?_ epsilon_pos.le
    linarith
  have hpos := epsilon_pos
  have hceil := Nat.ceil_mono hmul
  rw [Nat.ceil_add_one (by positivity)] at hceil
  exact hceil

end Qucs.Nonlinear
