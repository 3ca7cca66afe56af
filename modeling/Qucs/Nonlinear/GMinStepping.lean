/-
# gMin stepping ends, and without a resistance

A round that fails keeps `gPrev` and halves the step; one that converges lowers
`gPrev` to the value it was solved with, and doubles the step (`gMinRound_next`).
As long as the step is not too small that value lies half a least step below
`gPrev`, or is zero (`Going`). So

    2 · (half steps below gPrev)  +  (halvings left of the step)

gets smaller in every round. The loop returns without an error only after a round
that converged with `gMin` at zero (`gMinRound_success`).
-/
import Qucs.Nonlinear.Stepping

namespace Qucs.Nonlinear

open Lib.Loop

variable {σ : Type*} {a : Analysis σ} {MaxIterations : ℤ} {s s' : GMinStep σ}

/-- What holds of the local variables in every round. -/
structure GMinStep.Going (s : GMinStep σ) : Prop where
  prev : 0 < s.gPrev
  step : epsilon ≤ s.gStep
  nonneg : 0 ≤ s.solver.gMin
  below : s.solver.gMin ≤ max (s.gPrev - epsilon / 2) 0

def GMinStep.measure (s : GMinStep σ) : ℕ := 2 * halfSteps s.gPrev + halvings s.gStep

theorem gMinRound_next (h : gMinRound a MaxIterations s = .inr s') :
    (0 < s.gPrev ∧ epsilon ≤ s'.gStep ∧ s'.gStep = s.gStep / 2 ∧ s'.gPrev = s.gPrev ∧
        s'.solver.gMin = max (s.gPrev - s'.gStep) 0) ∨
      (0 < s.solver.gMin ∧ s'.gStep = s.gStep * 2 ∧ s'.gPrev = s.solver.gMin ∧
        s'.solver.gMin = max (s.solver.gMin - s.gStep) 0) := by
  simp only [gMinRound] at h
  split at h
  case isTrue hfail =>
    split at h
    case isTrue => cases h
    case isFalse hsmall =>
      split at h
      case isTrue hprev =>
        cases h
        exact .inl ⟨hprev, not_lt.mp hsmall, rfl, rfl, rfl⟩
      case isFalse => cases h
  case isFalse hconv =>
    split at h
    case isTrue hprev =>
      cases h
      exact .inr ⟨hprev, rfl, rfl, rfl⟩
    case isFalse => cases h

theorem gMinRound_success (hs : s.Going) {solver : Solver σ}
    (h : gMinRound a MaxIterations s = .inl (false, solver)) :
    s.solver.gMin = 0 ∧ (s.inner a MaxIterations).converged ∧
      solver.net = (s.inner a MaxIterations).net := by
  simp only [gMinRound] at h
  split at h
  case isTrue hfail =>
    split at h
    case isTrue => cases h
    case isFalse =>
      split at h
      case isTrue => cases h
      case isFalse hprev => exact absurd hs.prev hprev
  case isFalse hconv =>
    split at h
    case isTrue => cases h
    case isFalse hzero =>
      obtain ⟨hrun, herror⟩ := not_or.mp hconv
      simp only [Sum.inl.injEq, Prod.mk.injEq] at h
      obtain ⟨-, rfl⟩ := h
      exact ⟨le_antisymm (not_lt.mp hzero) hs.nonneg,
        solving_converged _ _ _ _ _ _ (Bool.not_eq_true _ ▸ herror) (not_le.mp hrun), rfl⟩

theorem GMinStep.Going.next (hs : s.Going) (h : gMinRound a MaxIterations s = .inr s') :
    s'.Going ∧ s'.measure < s.measure := by
  have heps := epsilon_pos
  rcases gMinRound_next h with ⟨_, hsmall, hstep, hprev, hmin⟩ | ⟨hpos, hstep, hprev, hmin⟩
  · constructor
    · constructor
      case prev => exact hprev ▸ hs.prev
      case step => exact hsmall
      case nonneg => exact hmin ▸ le_max_right _ _
      case below =>
        rw [hmin, hprev]
        exact max_le_max_right 0 (by linarith)
    · have hlt := halvings_lt hstep.le hsmall
      simp only [measure, hprev]
      omega
  · have hbelow : s.solver.gMin + epsilon / 2 ≤ s.gPrev := by
      rcases le_max_iff.mp hs.below with hle | hle
      · linarith
      · exact absurd hpos (not_lt.mpr hle)
    constructor
    · constructor
      case prev => exact hprev ▸ hpos
      case step => linarith [hs.step]
      case nonneg => exact hmin ▸ le_max_right _ _
      case below =>
        rw [hmin, hprev]
        exact max_le_max_right 0 (by linarith [hs.step])
    · have hlt := halfSteps_lt hs.nonneg hbelow
      have hle := halvings_le_succ hstep.le
      simp only [measure, hprev]
      omega

theorem gMinStart_going (s : Solver σ) : (gMinStart s).Going := by
  constructor <;> norm_num [gMinStart, epsilon]

/-- **gMin stepping ends**, whatever the solutions do, **and succeeds only on the
undisturbed circuit**: the inner loop of the last round converged with `gMin` at zero,
and the circuits are as it left them. -/
theorem solveNonlinearContinuationGMin_ends (a : Analysis σ) (maxIter : ℤ) (s : Solver σ) :
    ∃ n error solver,
      (∀ fuel ≥ n, solveNonlinearContinuationGMin a maxIter fuel s = .inl (error, solver)) ∧
      (error = false → ∃ k last, solveNonlinearContinuationGMin a maxIter k s = .inr last ∧
        gMinRound a (maxIter.tdiv 4 + 1) last = .inl (error, solver) ∧ last.solver.gMin = 0 ∧
          (last.inner a (maxIter.tdiv 4 + 1)).converged ∧
            solver.net = (last.inner a (maxIter.tdiv 4 + 1)).net) := by
  have hnext := @GMinStep.Going.next σ a (maxIter.tdiv 4 + 1)
  have hgoing := fun s s' hs h => (@hnext s s' hs h).1
  obtain ⟨n, ⟨error, solver⟩, hn⟩ := returns hgoing GMinStep.measure
    (fun _ _ hs h => (hnext hs h).2) (gMinStart_going s)
  refine ⟨n, error, solver, fun fuel hfuel => rounds_of_le hn hfuel, ?_⟩
  rintro rfl
  obtain ⟨k, last, hlast, hk, hround⟩ := rounds_result hgoing (gMinStart_going s) hn
  exact ⟨k, last, hk, hround, gMinRound_success hlast hround⟩

end Qucs.Nonlinear
