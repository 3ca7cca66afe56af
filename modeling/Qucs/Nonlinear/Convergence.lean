/-
# When non-convergence is reported

`nasolver.cpp`, `hbsolver.cpp`.
The Newton iteration of the nodal analysis and the one of the harmonic balance run
until the convergence test succeeds, a solution fails, or the limit is reached.

* nasolver::solve_nonlinear: `solveNonlinear` (its loop: `iterate`)
* hbsolver::solve: `solveBalance` (its loop: `balance`)

`Outcomes` says what the iterations meet, the first of which has number 1. With gMin
or source stepping `solve_nonlinear` hands over to `Qucs.Nonlinear.Stepping`; what
stands here is the loop of its own, in which `fixpoint` asks for a second success in
a row, with the matrix updated.

After the loop both solvers look at the number of iterations and not at how the loop
ended. So a test that succeeds in the last iteration allowed is reported as a
failure, and this is the only way to be wrong (`reports_iff`).
-/
import Mathlib

namespace Qucs.Nonlinear

/-- Whether the solution of an iteration failed, and what the test says of it. -/
structure Outcomes where
  error : ℕ → Bool
  check : ℕ → Bool

structure Ended where
  error : Bool
  convergence : Bool
  run : ℕ
  deriving DecidableEq, Repr

/-- The control of fixpoint iterations: `convergence` and `updateMatrix` after it. -/
def control (fixpoint updateMatrix convergence : Bool) : Bool × Bool :=
  if fixpoint then
    if convergence && !updateMatrix then (false, true) else (convergence, false)
  else (convergence, updateMatrix)

variable (o : Outcomes)

/-- The convergence check of the iteration after `run` others. -/
def Outcomes.convergence (run : ℕ) : Bool := decide (0 < run) && o.check (run + 1)

/-- The do-while loop of `solve_nonlinear`, after `run` iterations. -/
def iterate (o : Outcomes) (fixpoint : Bool) (MaxIterations run : ℕ) (updateMatrix : Bool) :
    Ended :=
  if o.error (run + 1) then ⟨true, false, run⟩
  else
    let c := control fixpoint updateMatrix (o.convergence run)
    if c.1 = false ∧ run + 1 < MaxIterations then
      iterate o fixpoint MaxIterations (run + 1) c.2
    else ⟨false, c.1, run + 1⟩
termination_by MaxIterations - run
decreasing_by omega

/-- How the loop ended, and whether the exception `EXCEPTION_NO_CONVERGENCE` is thrown. -/
def solveNonlinear (fixpoint : Bool) (MaxIterations : ℕ) : Ended × Bool :=
  let e := iterate o fixpoint MaxIterations 0 true
  (e, decide (MaxIterations ≤ e.run) || e.error)

/-- The do-while loop of the harmonic balance, after some iterations: `done`, and the
number of them. -/
def balance (checkBalance : ℕ → Bool) (MaxIterations iterations : ℕ) : Bool × ℕ :=
  if 1 < iterations + 1 ∧ checkBalance (iterations + 1) then (true, iterations + 1)
  else if iterations + 1 < MaxIterations then balance checkBalance MaxIterations (iterations + 1)
  else (false, iterations + 1)
termination_by MaxIterations - iterations
decreasing_by omega

/-- How the loop ended, and whether an error is reported. -/
def solveBalance (checkBalance : ℕ → Bool) (MaxIterations : ℕ) : (Bool × ℕ) × Bool :=
  let e := balance checkBalance MaxIterations 0
  (e, decide (MaxIterations ≤ e.2))

/-! ## What should be reported -/

/-- The test succeeds in iteration `k`; in the first one it is not made. -/
def Outcomes.Succeeds (k : ℕ) : Prop := 1 < k ∧ o.check k = true

/-- What ends the loop in iteration `k`: a success, for `fixpoint` two in a row. -/
def Outcomes.Stops (fixpoint : Bool) (k : ℕ) : Prop :=
  o.Succeeds k ∧ (fixpoint = true → o.Succeeds (k - 1))

/-- The report says that the loop ended without a success in its last iteration. -/
def Ended.Reported (e : Ended) (thrown : Bool) : Prop :=
  thrown = true ↔ ¬ (e.error = false ∧ o.Succeeds e.run)

/-- The limit is reached with a success. -/
def Outcomes.LastMoment (fixpoint : Bool) (MaxIterations run : ℕ) : Prop :=
  o.Succeeds MaxIterations ∧ ∀ k, run < k → k ≤ MaxIterations →
    o.error k = false ∧ (k < MaxIterations → ¬ o.Stops fixpoint k)

/-! ## The loops -/

variable {o : Outcomes} {fixpoint updateMatrix : Bool} {MaxIterations run : ℕ}

theorem Outcomes.lastMoment_succ (herror : o.error (run + 1) = false)
    (hstop : ¬ o.Stops fixpoint (run + 1)) :
    o.LastMoment fixpoint MaxIterations run ↔ o.LastMoment fixpoint MaxIterations (run + 1) := by
  refine and_congr_right fun _ => ⟨fun h k hk => h k (by omega), fun h k hk hle => ?_⟩
  obtain rfl | hlt : k = run + 1 ∨ run + 1 < k := by omega
  · exact ⟨herror, fun _ => hstop⟩
  · exact h k hlt hle

theorem convergence_iff : o.convergence run = true ↔ o.Succeeds (run + 1) := by
  simp [Outcomes.convergence, Outcomes.Succeeds]

theorem control_fst {c : Bool} : (control fixpoint updateMatrix c).1 = true ↔
    c = true ∧ (fixpoint = true → updateMatrix = true) := by
  cases fixpoint <;> cases updateMatrix <;> cases c <;> decide

/-- Where a fixpoint iteration goes on, the next one updates the matrix after a success. -/
theorem control_snd {c : Bool} (h : (control true updateMatrix c).1 = false) :
    (control true updateMatrix c).2 = c := by
  cases updateMatrix <;> cases c <;> simp_all [control]

theorem iterate_reported (hrun : run < MaxIterations)
    (hupdate : fixpoint = true → 0 < run → (updateMatrix = true ↔ o.Succeeds run)) :
    (iterate o fixpoint MaxIterations run updateMatrix).Reported o
        (decide (MaxIterations ≤ (iterate o fixpoint MaxIterations run updateMatrix).run) ||
          (iterate o fixpoint MaxIterations run updateMatrix).error) ↔
      ¬ o.LastMoment fixpoint MaxIterations run := by
  have hstop : ∀ {run updateMatrix},
      (fixpoint = true → 0 < run → (updateMatrix = true ↔ o.Succeeds run)) →
      ((control fixpoint updateMatrix (o.convergence run)).1 = true ↔
        o.Stops fixpoint (run + 1)) := by
    intro run updateMatrix hupdate
    rw [control_fst, convergence_iff]
    exact and_congr_right fun hs => forall_congr' fun hf =>
      hupdate hf (Nat.lt_of_succ_lt_succ hs.1)
  fun_induction iterate o fixpoint MaxIterations run updateMatrix with
  | case1 run updateMatrix herror =>
    have hno : ¬ o.LastMoment fixpoint MaxIterations run := fun h =>
      absurd ((h.2 (run + 1) (by omega) hrun).1) (by simp [herror])
    simp [Ended.Reported, hno]
  | case2 run updateMatrix herror c hgo ih =>
    have hno : ¬ o.Stops fixpoint (run + 1) := by
      rw [← hstop hupdate, hgo.1]
      exact Bool.false_ne_true
    rw [Outcomes.lastMoment_succ (by simpa using herror) hno]
    refine ih hgo.2 ?_
    rintro rfl -
    rw [control_snd hgo.1, convergence_iff]
  | case3 run updateMatrix herror c hend =>
    by_cases hlast : run + 1 = MaxIterations
    · subst hlast
      have hmoment : o.LastMoment fixpoint (run + 1) run ↔ o.Succeeds (run + 1) :=
        ⟨And.left, fun h => ⟨h, fun k hk hle => by
          obtain rfl : k = run + 1 := by omega
          exact ⟨by simpa using herror, fun hlt => absurd hlt (lt_irrefl _)⟩⟩⟩
      simp [Ended.Reported, hmoment]
    · have hstops : o.Stops fixpoint (run + 1) := by
        rw [← hstop hupdate]
        by_contra hno
        exact hend ⟨by simpa using hno, by omega⟩
      have hno : ¬ o.LastMoment fixpoint MaxIterations run := fun h =>
        (h.2 (run + 1) (by omega) (by omega)).2 (by omega) hstops
      have hlt : ¬ MaxIterations ≤ run + 1 := by omega
      simp [Ended.Reported, hno, hstops.1, hlt]

/-- The loop of the harmonic balance is that of the nodal analysis. -/
theorem balance_eq (checkBalance : ℕ → Bool) (iterations : ℕ) :
    iterate ⟨fun _ => false, checkBalance⟩ false MaxIterations iterations true =
      ⟨false, (balance checkBalance MaxIterations iterations).1,
        (balance checkBalance MaxIterations iterations).2⟩ := by
  have hconv : ∀ i, Outcomes.convergence ⟨fun _ => false, checkBalance⟩ i = true ↔
      1 < i + 1 ∧ checkBalance (i + 1) = true := fun i => convergence_iff
  fun_induction balance checkBalance MaxIterations iterations with
  | case1 iterations hdone =>
    rw [iterate]
    simp [control, (hconv iterations).mpr hdone]
  | case2 iterations hdone hlt ih =>
    rw [iterate]
    simp [control, Bool.eq_false_iff.mpr (mt (hconv iterations).mp hdone), hlt, ih]
  | case3 iterations hdone hlt =>
    rw [iterate]
    simp [control, Bool.eq_false_iff.mpr (mt (hconv iterations).mp hdone), hlt]

/-- **The reports of both solvers are right iff** it is not the last iteration
allowed that succeeds, with no iteration before it failing or ending the loop. -/
theorem reports_iff (o : Outcomes) (fixpoint : Bool) (MaxIterations : ℕ) (h : 1 ≤ MaxIterations) :
    ((solveNonlinear o fixpoint MaxIterations).1.Reported o
        (solveNonlinear o fixpoint MaxIterations).2 ↔
      ¬ o.LastMoment fixpoint MaxIterations 0) ∧
    (((solveBalance o.check MaxIterations).2 = true ↔
        ¬ o.Succeeds (solveBalance o.check MaxIterations).1.2) ↔
      ¬ Outcomes.LastMoment ⟨fun _ => false, o.check⟩ false MaxIterations 0) := by
  refine ⟨iterate_reported h fun _ h0 => absurd h0 (lt_irrefl 0), ?_⟩
  have hupdate : false = true → 0 < 0 →
      (true = true ↔ Outcomes.Succeeds ⟨fun _ => false, o.check⟩ 0) := fun h0 => nomatch h0
  rw [← iterate_reported h hupdate, balance_eq]
  simp [solveBalance, Ended.Reported, Outcomes.Succeeds]

/-- The test succeeds in the second iteration and always after it. -/
def settled : Outcomes := ⟨fun _ => false, fun k => decide (1 < k)⟩

/-- With a limit of three iterations the success in the second one is reported. -/
theorem reports_settled : 1 ≤ 3 ∧
    (solveNonlinear settled false 3).1.Reported settled (solveNonlinear settled false 3).2 := by
  refine ⟨by decide, (reports_iff settled false 3 (by decide)).1.mpr fun h => ?_⟩
  exact (h.2 2 (by decide) (by decide)).2 (by decide) ⟨⟨by decide, rfl⟩, fun h => nomatch h⟩

/-- With a limit of two, both solvers report a failure. -/
theorem reports_settled_last : ¬ ((solveNonlinear settled false 2).1.Reported settled
      (solveNonlinear settled false 2).2 ∧
    ((solveBalance settled.check 2).2 = true ↔
      ¬ settled.Succeeds (solveBalance settled.check 2).1.2)) := by
  simp [solveNonlinear, iterate, control, Outcomes.convergence, settled, Ended.Reported,
    Outcomes.Succeeds]

end Qucs.Nonlinear
