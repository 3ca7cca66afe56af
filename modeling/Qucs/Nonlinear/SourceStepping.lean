/-
# When source stepping ends

A round of source stepping has one of three outcomes (`sourceRound_next`):

* not converged: the step gets smaller, `sPrev` stays
* converged, in few iterations: `sPrev` gets the source factor, a larger step
* converged, but *slowly*: only the source factor moves on

The loop goes on until `sPrev` is one, and a slow round, with at least a quarter of
the iterations allowed, never sets it. The first two lower

    2 · (half steps from sPrev to one)  +  (halvings left of the step)

and a slow round leaves it as it is. So the loop ends iff it does not come
to slow rounds only (`solveNonlinearContinuationSource_ends_iff`); circuits that
always converge at once keep it going for ever if `MaxIter` is small
(`solveNonlinearContinuationSource_endless`). When it ends without an error the
last round has converged with all sources at full strength
(`sourceRound_success`).
-/
import Qucs.Nonlinear.Stepping

namespace Qucs.Nonlinear

open Lib.Loop

variable {σ : Type*} {a : Analysis σ} {MaxIterations : ℤ} {s s' : SourceStep σ}

/-- The inner loop converges, with a quarter of the iterations allowed or more. -/
def SourceStep.Slow (a : Analysis σ) (MaxIterations : ℤ) (s : SourceStep σ) : Prop :=
  (s.inner a MaxIterations).converged ∧ (s.inner a MaxIterations).run < MaxIterations ∧
    MaxIterations.tdiv 4 ≤ (s.inner a MaxIterations).run

/-- What holds of the local variables in every round. -/
structure SourceStep.Going (s : SourceStep σ) : Prop where
  prev : s.sPrev < 1
  step : epsilon ≤ s.sStep
  le_one : s.solver.srcFactor ≤ 1
  above : min (s.sPrev + epsilon / 2) 1 ≤ s.solver.srcFactor

def SourceStep.measure (s : SourceStep σ) : ℕ := 2 * halfSteps (1 - s.sPrev) + halvings s.sStep

theorem not_failed_iff {i : Inner σ} :
    ¬ (MaxIterations ≤ i.run ∨ i.error) ↔ i.run < MaxIterations ∧ i.error = false := by
  rw [not_or, not_le, Bool.not_eq_true]

theorem reducedStep_le (error : Bool) {sStep : ℚ} (h : 0 ≤ sStep) :
    reducedStep error sStep ≤ sStep / 2 := by
  rw [reducedStep]
  split <;> linarith

theorem sourceRound_next (h : sourceRound a MaxIterations s = .inr s') :
    (s'.sPrev = s.sPrev ∧ epsilon ≤ s'.sStep ∧ (0 ≤ s.sStep → s'.sStep ≤ s.sStep / 2) ∧
        s'.solver.srcFactor = min (s.sPrev + s'.sStep) 1) ∨
      (s.solver.srcFactor < 1 ∧ s'.sPrev = s.solver.srcFactor ∧ s'.sStep = s.sStep * (3 / 2) ∧
        s'.solver.srcFactor = min (s.solver.srcFactor + s.sStep) 1) ∨
      (s.Slow a MaxIterations ∧ s'.sPrev = s.sPrev ∧ s'.sStep = s.sStep ∧
        s'.solver.srcFactor = min (s.solver.srcFactor + s.sStep) 1) := by
  simp only [sourceRound] at h
  split at h
  case isTrue hfail =>
    split at h
    case isTrue => cases h
    case isFalse hsmall =>
      split at h
      case isTrue hprev =>
        cases h
        exact .inl ⟨rfl, not_lt.mp hsmall, reducedStep_le _, rfl⟩
      case isFalse => cases h
  case isFalse hconv =>
    obtain ⟨hrun, herror⟩ := not_failed_iff.mp hconv
    split at h
    case isTrue hquick =>
      split at h
      case isTrue hprev =>
        cases h
        exact .inr (.inl ⟨hprev, rfl, rfl, rfl⟩)
      case isFalse => cases h
    case isFalse hslow =>
      split at h
      case isTrue hprev =>
        cases h
        exact .inr (.inr ⟨⟨solving_converged _ _ _ _ _ _ herror hrun, hrun, not_lt.mp hslow⟩,
          rfl, rfl, rfl⟩)
      case isFalse => cases h

theorem sourceRound_success (hs : s.Going) {solver : Solver σ}
    (h : sourceRound a MaxIterations s = .inl (false, solver)) :
    s.solver.srcFactor = 1 ∧ (s.inner a MaxIterations).converged ∧
      solver.net = a.setSrcFactor 1 (s.inner a MaxIterations).net := by
  simp only [sourceRound] at h
  split at h
  case isTrue hfail =>
    split at h
    case isTrue => cases h
    case isFalse =>
      split at h
      case isTrue => cases h
      case isFalse hprev => exact absurd hs.prev hprev
  case isFalse hconv =>
    obtain ⟨hrun, herror⟩ := not_failed_iff.mp hconv
    split at h
    case isTrue hquick =>
      split at h
      case isTrue => cases h
      case isFalse hone =>
        simp only [sourceEnd, Sum.inl.injEq, Prod.mk.injEq] at h
        obtain ⟨-, rfl⟩ := h
        exact ⟨le_antisymm hs.le_one (not_lt.mp hone),
          solving_converged _ _ _ _ _ _ herror hrun, rfl⟩
    case isFalse hslow =>
      split at h
      case isTrue => cases h
      case isFalse hprev => exact absurd hs.prev hprev

theorem SourceStep.Going.next (hs : s.Going) (h : sourceRound a MaxIterations s = .inr s') :
    s'.Going ∧ s'.measure ≤ s.measure ∧ (¬ s.Slow a MaxIterations → s'.measure < s.measure) := by
  have heps := epsilon_pos
  have hstep₀ := hs.step
  have habove : ∀ x step, epsilon / 2 ≤ step → min (x + epsilon / 2) 1 ≤ min (x + step) 1 :=
    fun x step hle => min_le_min_right 1 (by linarith)
  rcases sourceRound_next h with ⟨hprev, hsmall, hstep, hfactor⟩ | ⟨hlt, hprev, hstep, hfactor⟩ |
    ⟨hslow, hprev, hstep, hfactor⟩
  · refine ⟨⟨hprev ▸ hs.prev, hsmall, hfactor ▸ min_le_right _ _, ?_⟩, ?_⟩
    · rw [hfactor, hprev]
      exact habove _ _ (by linarith)
    · have hless := halvings_lt (hstep (by linarith)) hsmall
      simp only [measure, hprev]
      omega
  · have hfar : 1 - s.solver.srcFactor + epsilon / 2 ≤ 1 - s.sPrev := by
      rcases min_le_iff.mp hs.above with hle | hle
      · linarith
      · exact absurd hlt (not_lt.mpr hle)
    refine ⟨⟨hprev ▸ hlt, by linarith, hfactor ▸ min_le_right _ _, ?_⟩, ?_⟩
    · rw [hfactor, hprev]
      exact habove _ _ (by linarith)
    · have hless := halfSteps_lt (by linarith) hfar
      have hle : halvings s'.sStep ≤ halvings s.sStep + 1 := halvings_le_succ (by linarith)
      simp only [measure, hprev]
      omega
  · refine ⟨⟨hprev ▸ hs.prev, hstep ▸ hs.step, hfactor ▸ min_le_right _ _, ?_⟩, ?_, fun hno => ?_⟩
    · rw [hfactor, hprev]
      refine le_min ?_ (min_le_right _ _)
      linarith [hs.above]
    · simp only [measure, hprev, hstep, le_refl]
    · exact absurd hslow hno

theorem sourceStart_going (s : Solver σ) : (sourceStart s).Going := by
  constructor <;> norm_num [sourceStart, epsilon]

/-- **Source stepping ends, and succeeds only at full excitation, unless it comes to
a round from which on every inner loop converges slowly.** -/
theorem solveNonlinearContinuationSource_ends_iff (a : Analysis σ) (maxIter : ℤ) (s : Solver σ) :
    (∃ n error solver,
      (∀ fuel ≥ n, solveNonlinearContinuationSource a maxIter fuel s = .inl (error, solver)) ∧
      (error = false → ∃ k last, solveNonlinearContinuationSource a maxIter k s = .inr last ∧
        sourceRound a (maxIter.tdiv 4 + 1) last = .inl (error, solver) ∧
          last.solver.srcFactor = 1 ∧ (last.inner a (maxIter.tdiv 4 + 1)).converged ∧
            solver.net = a.setSrcFactor 1 (last.inner a (maxIter.tdiv 4 + 1)).net)) ↔
    ¬ ∃ n step, solveNonlinearContinuationSource a maxIter n s = .inr step ∧
      ∀ k, ∃ later, rounds (sourceRound a (maxIter.tdiv 4 + 1)) k step = .inr later ∧
        later.Slow a (maxIter.tdiv 4 + 1) := by
  have hnext := @SourceStep.Going.next σ a (maxIter.tdiv 4 + 1)
  have hgoing := fun s s' hs h => (@hnext s s' hs h).1
  refine Iff.trans ⟨?_, ?_⟩ (returns_iff hgoing
    (SourceStep.Slow a (maxIter.tdiv 4 + 1)) SourceStep.measure
    (fun _ _ hs h => (hnext hs h).2.1) (fun _ _ hs h => (hnext hs h).2.2)
    (sourceStart_going s))
  · rintro ⟨n, error, solver, hn, -⟩
    exact ⟨n, (error, solver), hn n le_rfl⟩
  · rintro ⟨n, ⟨error, solver⟩, hn⟩
    refine ⟨n, error, solver, fun fuel hfuel => rounds_of_le hn hfuel, ?_⟩
    rintro rfl
    obtain ⟨k, last, hlast, hk, hround⟩ := rounds_result hgoing (sourceStart_going s) hn
    exact ⟨k, last, hk, hround, sourceRound_success hlast hround⟩

/-- Circuits that converge at once. -/
def steady : Analysis Unit where
  desc := "DC"
  solveOnce := fun _ _ => (false, ())
  checkConvergence := fun _ => true
  savePreviousIteration := id
  restorePreviousIteration := id
  saveSolution := id
  setSrcFactor := fun _ => id

/-- Two iterations are not less than a quarter of the eleven that are allowed. -/
theorem steady_slow (s : SourceStep Unit) : s.Slow steady 11 := by
  have hinner : s.inner steady 11 = ⟨false, true, 2, ()⟩ := by
    rw [SourceStep.inner, solving]
    simp only [steady]
    rw [solving]
    simp
  rw [SourceStep.Slow, hinner]
  exact ⟨⟨rfl, rfl⟩, by decide, by decide⟩

/-- With `MaxIter` at 40 such circuits are solved again and again. -/
theorem solveNonlinearContinuationSource_endless :
    ¬ ∃ n result, solveNonlinearContinuationSource steady 40 n
      ⟨⟨0, 0, true, false⟩, (), 0, []⟩ = .inl result := by
  rintro ⟨n, result, h⟩
  have hround : ∀ s, s.sPrev < 1 →
      ∃ s', sourceRound steady 11 s = .inr s' ∧ s'.sPrev < 1 := by
    intro s hs
    obtain ⟨⟨herror, -⟩, hrun, hslow⟩ := steady_slow s
    refine ⟨⟨{ s.solver with
        net := (s.inner steady 11).net
        iterations := s.solver.iterations + (s.inner steady 11).run
        srcFactor := min (s.solver.srcFactor + s.sStep) 1 }, s.sPrev, s.sStep⟩, ?_, hs⟩
    simp only [sourceRound]
    rw [if_neg (not_failed_iff.mpr ⟨hrun, herror⟩), if_neg (not_lt.mpr hslow), if_pos hs]
  obtain ⟨s', hs'⟩ := rounds_endless hround
    (s := sourceStart ⟨⟨0, 0, true, false⟩, (), 0, []⟩) (by norm_num [sourceStart]) n
  exact absurd (h.symm.trans hs') (by simp)

end Qucs.Nonlinear
