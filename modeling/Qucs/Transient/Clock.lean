/-
# The time and the step of each call

`trsolver.cpp`. A call computes the solution at `current`, with
coefficients for the step `delta`. The two are changed together in three
branches:

    accepted             current = current + the next delta
    rejected step        current = current - delta + the next delta
    no convergence       the same, but each half only `if (current > 0)`

In the third branch the second test sees the time that was gone back to. If that
is 0, the next call is made at 0 with a positive step. Apart from this the time
is kept (`Clock`), and so is the range of the step, once it is in it: `solve`
divides the initial step by ten after `initTR` has put it there.

    the last accepted time of a run      `lastAccepted`
    the time and the steps are right     `TimeKept`
    what is needed for it                `Steady`
-/
import Qucs.Transient.Saves

namespace Qucs.Transient

open Solver List

/-! ## Runs -/

section Runs

variable {K : Type} [Field K] [LinearOrder K]

/-- Each call is made in the state in which the call before it leaves the solver. -/
def Linked (p : Properties K) : Solver K → List (Event K) → Prop
  | _, [] => True
  | s, e :: es => e.before = s ∧
      (es ≠ [] → ∃ s', s.attempt p e.time e.call = .ok s' ∧ Linked p s' es)

variable {p : Properties K}

theorem doWhile_linked {time : K} {tail : List (Event K)} :
    ∀ {calls : List (Call K)} {s : Solver K},
      (∀ s' rest, (doWhile p time calls s).2 = .hit s' rest → Linked p s' tail) →
      ((∀ s' rest, (doWhile p time calls s).2 ≠ .hit s' rest) → tail = []) →
      Linked p s ((doWhile p time calls s).1 ++ tail)
  | [], s, _, hno => by
    rw [hno (by rintro _ _ ⟨⟩)]
    trivial
  | call :: calls, s, hhit, hno => by
    rw [doWhile] at hhit hno ⊢
    cases hatt : s.attempt p time call with
    | error s₁ =>
      simp only [hatt] at hno ⊢
      rw [hno (by rintro _ _ ⟨⟩)]
      exact ⟨rfl, fun h => absurd rfl h⟩
    | ok s₁ =>
      simp only [hatt] at hhit hno ⊢
      by_cases hlt : s₁.saveCurrent < time
      · rw [if_pos hlt] at hhit hno ⊢
        exact ⟨rfl, fun _ => ⟨s₁, hatt, doWhile_linked hhit hno⟩⟩
      · rw [if_neg hlt] at hhit ⊢
        exact ⟨rfl, fun _ => ⟨s₁, hatt, hhit s₁ calls rfl⟩⟩

theorem solve_linked : ∀ {times : List K} {calls : List (Call K)} {s : Solver K},
    Linked p s (solve p times calls s)
  | [], calls, s => trivial
  | time :: times, calls, s => by
    refine doWhile_linked (fun s' rest hhit => ?_) fun hno => ?_
    · rw [hhit]
      exact solve_linked
    · split
      case h_1 s' rest hhit => exact absurd hhit (hno s' rest)
      case h_2 => rfl
      case h_3 => rfl

theorem Linked.keeps {I : Solver K → Prop}
    (hstep : ∀ {s s' : Solver K} {time : K} {call : Call K}, I s →
      s.attempt p time call = .ok s' → I s') :
    ∀ {es : List (Event K)} {s : Solver K}, Linked p s es → I s → ∀ e ∈ es, I e.before
  | [], s, _, _, e, he => nomatch he
  | e₁ :: es, s, ⟨hbefore, hnext⟩, hI, e, he => by
    rcases mem_cons.mp he with rfl | he
    · exact hbefore ▸ hI
    · obtain ⟨s', hatt, hlinked⟩ := hnext (ne_nil_of_mem he)
      exact hlinked.keeps hstep (hstep hI hatt) e he

theorem Linked.drop : ∀ {pre es : List (Event K)} {s : Solver K}, Linked p s (pre ++ es) →
    es ≠ [] → ∃ s', Linked p s' es
  | [], es, s, h, _ => ⟨s, h⟩
  | e :: pre, es, s, ⟨_, hnext⟩, hne => by
    obtain ⟨s', -, hlinked⟩ := hnext (append_ne_nil_of_right_ne_nil pre hne)
    exact hlinked.drop hne

theorem Linked.attempt {pre rest : List (Event K)} {e e' : Event K} {s : Solver K}
    (h : Linked p s (pre ++ e :: e' :: rest)) :
    e.before.attempt p e.time e.call = .ok e'.before := by
  obtain ⟨s₁, hbefore, hnext⟩ := h.drop (cons_ne_nil _ _)
  obtain ⟨s₂, hatt, hbefore', -⟩ := hnext (cons_ne_nil _ _)
  rw [hbefore, hatt, hbefore']

end Runs

/-! ## The clock -/

section Range

variable {K : Type} [LinearOrder K]

/-- The step of `initTR`. -/
def Properties.initialDelta (p : Properties K) (initialStep : K) : K :=
  let delta := if initialStep < p.deltaMin then p.deltaMin else initialStep
  if delta > p.deltaMax then p.deltaMax else delta

theorem Properties.initialDelta_mem {p : Properties K} (hle : p.deltaMin ≤ p.deltaMax)
    (initialStep : K) :
    p.deltaMin ≤ p.initialDelta initialStep ∧ p.initialDelta initialStep ≤ p.deltaMax := by
  rw [initialDelta]
  constructor <;> split_ifs <;> order

end Range

namespace Solver

variable {K : Type} [LinearOrder K] {p : Properties K}

theorem clampDelta_ge (p : Properties K) (delta : K) : p.deltaMin ≤ clampDelta p delta := by
  rw [clampDelta]
  split_ifs <;> order

theorem clampDelta_le (h : p.deltaMin ≤ p.deltaMax) (delta : K) :
    clampDelta p delta ≤ p.deltaMax := by
  rw [clampDelta]
  split_ifs <;> order

variable [Field K] {s : Solver K}

theorem nextDelta_eq (p : Properties K) (s : Solver K) (time n : K) :
    (∃ d, s.nextDelta p time n = clampDelta p d) ∨ s.nextDelta p time n = s.delta := by
  rw [nextDelta]
  split
  · refine .inl ?_
    rw [proposeDelta]
    split
    · exact ⟨_, rfl⟩
    · exact ⟨_, rfl⟩
  · exact .inr rfl

theorem reduceStep_delta : (s.reduceStep p).delta = max (s.delta / 2) p.deltaMin := by
  obtain ⟨o, heq⟩ := reduceStep_eq (s := s)
  rw [heq]

theorem nextDelta_pos (hmin : 0 < p.deltaMin) (h : 0 < s.delta) (time n : K) :
    0 < s.nextDelta p time n := by
  rcases nextDelta_eq p s time n with ⟨d, hd⟩ | hd
  · exact hd ▸ hmin.trans_le (clampDelta_ge p d)
  · exact hd ▸ h

end Solver

section Clock

variable {K : Type} [Field K] [LinearOrder K]

/-- The time of the next call is one step after the last accepted time. After a call
that does not converge at the first step, it is 0 again. -/
structure Clock (s : Solver K) : Prop where
  delta : 0 < s.delta
  saved : 0 ≤ s.saveCurrent
  current : s.current = s.saveCurrent + s.delta ∨ s.current = 0 ∧ s.saveCurrent = 0

variable [IsStrictOrderedRing K] {p : Properties K} {s s' : Solver K}

theorem Clock.back (h : Clock s) :
    (if s.current > 0 then s.current - s.delta else s.current) = s.saveCurrent := by
  rcases h.current with hcur | ⟨hcur, hsave⟩
  · rw [if_pos (hcur ▸ add_pos_of_nonneg_of_pos h.saved h.delta), hcur, add_sub_cancel_right]
  · rw [if_neg (by rw [hcur]; exact lt_irrefl 0), hcur, hsave]

/-- The call is made after the last accepted time, iff that is not 0. -/
theorem Clock.delta_lt_iff (h : Clock s) : s.delta < s.current ↔ 0 < s.saveCurrent := by
  rcases h.current with hcur | ⟨hcur, hsave⟩
  · rw [hcur, lt_add_iff_pos_left]
  · rw [hcur, hsave]
    exact iff_of_false h.delta.not_gt (lt_irrefl 0)

/-- What a call that does not converge does to the time. -/
theorem Clock.reduceStep_current (h : Clock s) : (s.reduceStep p).current =
    if 0 < s.saveCurrent then s.saveCurrent + (s.reduceStep p).delta else s.saveCurrent := by
  obtain ⟨o, heq⟩ := reduceStep_eq (s := s)
  rw [heq, h.back]

/-- **One pass of the loop**, in a state with a clock. -/
theorem Clock.attempt_cases (h : Clock s) {time : K} {call : Call K}
    (hatt : s.attempt p time call = .ok s') :
    (∃ x, call.outcome = .noConvergence x) ∧ s'.saveCurrent = s.saveCurrent ∧
      s'.delta = max (s.delta / 2) p.deltaMin ∧
      s'.current = (if 0 < s.saveCurrent then s.saveCurrent + s'.delta else s.saveCurrent) ∨
    (∃ x n, call.outcome = .solved x n ∧ s'.delta = s.nextDelta p time n ∧
      s'.saveCurrent = if s.running ≤ 1 ∨ s.passes p time n then s.current
        else s.saveCurrent) ∧ s'.current = s'.saveCurrent + s'.delta := by
  rw [attempt] at hatt
  split at hatt
  case h_1 x hout =>
    cases hatt
    have hc : Clock (s.corrected call.prediction x) := ⟨h.delta, h.saved, h.current⟩
    exact .inl ⟨⟨x, hout⟩, reduceStep_saveCurrent, reduceStep_delta, hc.reduceStep_current⟩
  case h_2 => cases hatt
  case h_3 => cases hatt
  case h_4 x n hout =>
    cases hatt
    refine .inr ⟨⟨x, n, hout, ?_⟩, by simp⟩
    rcases judge_cases p (s.corrected call.prediction x) time n with
      ⟨hpass, o, stepDelta, hjudge⟩ | ⟨⟨hrun, hpass⟩, o, stepDelta, hjudge⟩
    · rw [corrected_running, passes_corrected, ← not_le, ← or_iff_not_imp_left]
        at hpass
      rw [hjudge, if_pos hpass, advance_delta, nextDelta_corrected]
      exact ⟨rfl, by simp⟩
    · rw [corrected_running] at hrun
      rw [passes_corrected] at hpass
      rw [if_neg (not_or.mpr ⟨hrun.not_ge, hpass⟩), hjudge, advance_delta,
        nextDelta_corrected, advance_saveCurrent]
      exact ⟨rfl, h.back⟩

theorem Clock.start {delta : K} (h : 0 < delta) (x : List K) (circuits : List (Circuit K)) :
    Clock (Solver.start delta x circuits) :=
  ⟨div_pos h (by norm_num), le_rfl, .inr ⟨rfl, rfl⟩⟩

variable (hmin : 0 < p.deltaMin)
include hmin

/-- **The clock is kept** by every pass of the loop. -/
theorem Clock.attempt (h : Clock s) {time : K} {call : Call K}
    (hatt : s.attempt p time call = .ok s') : Clock s' := by
  rcases h.attempt_cases hatt with ⟨-, hsave, hdelta, hcur⟩ | ⟨⟨x, n, -, hdelta, hsave⟩, hcur⟩
  · refine ⟨hdelta ▸ lt_max_of_lt_right hmin, hsave ▸ h.saved, ?_⟩
    rw [hcur, hsave]
    rcases h.saved.lt_or_eq with hpos | hzero
    · exact .inl (if_pos hpos)
    · exact .inr ⟨by rw [if_neg (hzero ▸ lt_irrefl 0), hzero], hzero.symm⟩
  · refine ⟨hdelta ▸ nextDelta_pos hmin h.delta time n, ?_, .inl hcur⟩
    rw [hsave]
    split
    · rcases h.current with hcur | ⟨hcur, -⟩
      · exact hcur ▸ add_nonneg h.saved h.delta.le
      · exact hcur.ge
    · exact h.saved

theorem solve_clock {times : List K} {calls : List (Call K)}
    (h : Clock s) : ∀ e ∈ solve p times calls s, Clock e.before :=
  solve_linked.keeps (fun hI hatt => hI.attempt hmin hatt) h

/-- In a transient analysis with positive steps, the time a rejected call goes back to
is always the one in `saveCurrent`. -/
theorem solve_returnsTo {delta : K} (hdelta : 0 < delta) {x : List K}
    {circuits : List (Circuit K)} {times : List K} {calls : List (Call K)} :
    ∀ e ∈ solve p times calls (Solver.start delta x circuits),
      e.returnsTo = e.before.saveCurrent := by
  intro e he
  have hclock := solve_clock hmin (Clock.start hdelta x circuits) e he
  rw [Event.returnsTo]
  split
  · exact hclock.back
  · rfl

/-! ## The time and the range of the step -/

/-- The time of the last accepted solution, which is `t` before the run. -/
def lastAccepted (p : Properties K) (t : K) (es : List (Event K)) : K :=
  es.foldl (fun t e => if e.accepts p then e.before.current else t) t

/-- At each call after the first, the time is one step after that of the last accepted
solution; the initial one has the time 0. The steps are in their range. -/
structure TimeKept (p : Properties K) (es : List (Event K)) : Prop where
  time : ∀ pre e e' rest, es = pre ++ e :: e' :: rest →
    e'.before.current = lastAccepted p 0 (pre ++ [e]) + e'.before.delta
  step : ∀ e ∈ es, p.deltaMin ≤ e.before.delta ∧ e.before.delta ≤ p.deltaMax

/-- The first step is in its range, and a call that is repeated because it did not
converge was made more than one step after 0. -/
structure Steady (p : Properties K) (es : List (Event K)) : Prop where
  first : ∀ e ∈ es.head?, p.deltaMin ≤ e.before.delta
  repeated : ∀ pre e e' rest x, es = pre ++ e :: e' :: rest → e.call.outcome = .noConvergence x →
    e.before.delta < e.before.current

omit hmin in
theorem Clock.accepts (h : Clock s) {e : Event K} (hbefore : e.before = s)
    (hatt : s.attempt p e.time e.call = .ok s') :
    (if e.accepts p then e.before.current else s.saveCurrent) = s'.saveCurrent := by
  subst hbefore
  rcases h.attempt_cases hatt with ⟨⟨x, hout⟩, hsave, -⟩ | ⟨⟨x, n, hout, -, hsave⟩, -⟩
  · simp [Event.accepts, hout, hsave]
  · rw [hsave, Event.accepts, hout]
    simp

theorem Linked.lastAccepted_eq {e' : Event K} {rest : List (Event K)} :
    ∀ {pre : List (Event K)} {s : Solver K}, Clock s → Linked p s (pre ++ e' :: rest) →
      lastAccepted p s.saveCurrent pre = e'.before.saveCurrent
  | [], s, _, ⟨hbefore, _⟩ => by rw [hbefore]; rfl
  | e :: pre, s, h, ⟨hbefore, hnext⟩ => by
    obtain ⟨s', hatt, hlinked⟩ := hnext (by simp)
    rw [← hlinked.lastAccepted_eq (h.attempt hmin hatt), ← h.accepts hbefore hatt]
    rfl

theorem Clock.current_iff {e e' : Event K} (h : Clock e.before)
    (hatt : e.before.attempt p e.time e.call = .ok e'.before) :
    e'.before.current = e'.before.saveCurrent + e'.before.delta ↔
      ∀ x, e.call.outcome = .noConvergence x → e.before.delta < e.before.current := by
  have h' := h.attempt hmin hatt
  rw [h.delta_lt_iff]
  rcases h.attempt_cases hatt with ⟨⟨x, hout⟩, hsave, -, hcur⟩ | ⟨⟨x, n, hout, -⟩, hcur⟩
  · rw [hcur, hsave]
    constructor
    · intro heq _ _
      by_contra hzero
      rw [if_neg hzero, left_eq_add] at heq
      exact h'.delta.ne' heq
    · intro hpos
      rw [if_pos (hpos x hout)]
  · refine iff_of_true hcur fun y hy => ?_
    rw [hout] at hy
    cases hy

theorem Clock.range (hle : p.deltaMin ≤ p.deltaMax) {time : K} {call : Call K}
    (h : Clock s ∧ p.deltaMin ≤ s.delta ∧ s.delta ≤ p.deltaMax)
    (hatt : s.attempt p time call = .ok s') :
    Clock s' ∧ p.deltaMin ≤ s'.delta ∧ s'.delta ≤ p.deltaMax := by
  refine ⟨h.1.attempt hmin hatt, ?_⟩
  rcases h.1.attempt_cases hatt with ⟨-, -, hdelta, -⟩ | ⟨⟨x, n, -, hdelta, -⟩, -⟩
  · rw [hdelta]
    exact ⟨le_max_right _ _, max_le ((half_le_self h.1.delta.le).trans h.2.2) hle⟩
  · rw [hdelta]
    rcases nextDelta_eq p s time n with ⟨d, hd⟩ | hd
    · exact hd ▸ ⟨clampDelta_ge p d, clampDelta_le hle d⟩
    · exact hd ▸ h.2

/-- **The time is kept in a run iff** the run is steady. -/
theorem Linked.timeKept_iff (hle : p.deltaMin ≤ p.deltaMax)
    {es : List (Event K)} (h : Clock s) (hzero : s.saveCurrent = 0) (hs : s.delta ≤ p.deltaMax)
    (hlinked : Linked p s es) : TimeKept p es ↔ Steady p es := by
  have hpair : ∀ pre e e' rest, es = pre ++ e :: e' :: rest →
      (e'.before.current = lastAccepted p 0 (pre ++ [e]) + e'.before.delta ↔
        ∀ x, e.call.outcome = .noConvergence x → e.before.delta < e.before.current) := by
    rintro pre e e' rest rfl
    have hclock := hlinked.keeps (fun hI hatt => Clock.attempt hmin hI hatt) h e (by simp)
    have hsplit : Linked p s ((pre ++ [e]) ++ e' :: rest) := by simpa using hlinked
    rw [← hzero, Linked.lastAccepted_eq hmin h hsplit]
    exact hclock.current_iff hmin hlinked.attempt
  constructor
  · intro hkept
    refine ⟨fun e he => (hkept.step e (mem_of_mem_head? he)).1, ?_⟩
    exact fun pre e e' rest x hes => (hpair pre e e' rest hes).mp (hkept.time pre e e' rest hes) x
  · intro hsteady
    refine ⟨fun pre e e' rest hes => (hpair pre e e' rest hes).mpr fun x =>
      hsteady.repeated pre e e' rest x hes, ?_⟩
    cases es with
    | nil => exact fun e he => nomatch he
    | cons e es =>
      have hfirst := hsteady.first e rfl
      rw [hlinked.1] at hfirst
      exact fun e' he' => (hlinked.keeps (fun hI hatt => Clock.range hmin hle hI hatt)
        ⟨h, hfirst, hs⟩ e' he').2

/-- **The transient analysis keeps its time iff** the first step, a tenth of the
initial one, is not too small, and no call is repeated at the time 0 or one step after it
because it did not converge. -/
theorem solve_timeKept_iff (hle : p.deltaMin ≤ p.deltaMax) (initialStep : K)
    (x : List K) (circuits : List (Circuit K)) (times : List K) (calls : List (Call K)) :
    TimeKept p (solve p times calls (.start (p.initialDelta initialStep) x circuits)) ↔
      Steady p (solve p times calls (.start (p.initialDelta initialStep) x circuits)) := by
  obtain ⟨hge, hmax⟩ := p.initialDelta_mem hle initialStep
  have hpos := hmin.trans_le hge
  refine Linked.timeKept_iff hmin hle (Clock.start hpos x circuits) rfl ?_ solve_linked
  exact (div_le_self hpos.le (by norm_num)).trans hmax

end Clock

def unitSteps : Properties ℚ := ⟨1, 10, false, 2⟩

def unitStart : Solver ℚ := .start (unitSteps.initialDelta 20) [0] []

def solvedCall : Call ℚ := ⟨[0], .solved [0] 5⟩

def afterSolved : Solver ℚ := ((unitStart.corrected [0] [0]).judge unitSteps 0 5).advance

theorem unitStart_delta : unitStart.delta = 1 := by
  have hdelta : unitSteps.initialDelta 20 = 10 := by decide +kernel
  rw [unitStart, hdelta]
  norm_num [start]

theorem afterSolved_fields :
    afterSolved.saveCurrent = 0 ∧ afterSolved.current = 1 ∧ afterSolved.delta = 1 := by
  have hjudge : (unitStart.corrected [0] [0]).judge unitSteps 0 5 =
      { (unitStart.corrected [0] [0]).nextStates with rejected := 0 } := if_neg (by decide)
  have hcurrent : unitStart.current = 0 := rfl
  have hdelta : (unitStart.corrected [0] [0]).nextStates.delta = unitStart.delta := rfl
  rw [afterSolved, hjudge]
  simp [unitStart_delta, hcurrent, hdelta]

theorem solve_unitStart (calls : List (Call ℚ)) :
    solve unitSteps [0, 5] (solvedCall :: calls) unitStart =
      ⟨unitStart, 0, solvedCall, some afterSolved⟩ :: solve unitSteps [5] calls afterSolved := by
  have hatt : unitStart.attempt unitSteps 0 solvedCall = .ok afterSolved := rfl
  rw [solve, doWhile, hatt]
  dsimp only
  rfl

theorem solve_timeKept_accepted : TimeKept unitSteps
    (solve unitSteps [0, 5] [solvedCall, ⟨[0], .failed [0]⟩]
      (.start (unitSteps.initialDelta 20) [0] [])) := by
  refine (solve_timeKept_iff (by decide) (by decide) 20 [0] [] _ _).mpr ?_
  rw [← unitStart, solve_unitStart]
  constructor
  case first =>
    rintro e he
    cases he
    exact unitStart_delta.ge
  case repeated =>
    intro pre e e' rest x hes hout
    cases pre with
    | nil =>
      cases hes
      cases hout
    | cons e₁ pre =>
      have hlen := congrArg length hes
      simp [solve, doWhile, attempt] at hlen
      omega

/-- The second call, one step after 0, does not converge. The third is made at 0 again, with a
step of 1. -/
theorem solve_not_timeKept : ¬TimeKept unitSteps
    (solve unitSteps [0, 5] [solvedCall, ⟨[0], .noConvergence [7]⟩, ⟨[0], .failed [0]⟩]
      (.start (unitSteps.initialDelta 20) [0] [])) := by
  intro h
  obtain ⟨hsave, hcurrent, hdelta⟩ := afterSolved_fields
  have hclock : Clock (afterSolved.corrected [0] [7]) :=
    ⟨by simp [hdelta], by simp [hsave], .inl (by simp [hdelta, hsave, hcurrent])⟩
  obtain ⟨s, hs⟩ : ∃ s, s = (afterSolved.corrected [0] [7]).reduceStep unitSteps := ⟨_, rfl⟩
  have hlate : s.saveCurrent < 5 := by
    rw [hs, reduceStep_saveCurrent, corrected_saveCurrent, hsave]
    norm_num
  have hrun : solve unitSteps [5] [⟨[0], .noConvergence [7]⟩, ⟨[0], .failed [0]⟩] afterSolved =
      [⟨afterSolved, 5, ⟨[0], .noConvergence [7]⟩, none⟩, ⟨s, 5, ⟨[0], .failed [0]⟩, none⟩] := by
    simp [solve, doWhile, attempt, ← hs, hlate]
  rw [← unitStart, solve_unitStart, hrun] at h
  have htime := h.time [_] _ _ [] rfl
  have hstart : unitStart.current = 0 := rfl
  rw [hs, hclock.reduceStep_current, reduceStep_delta] at htime
  have hzero : (0 : ℚ) = max 2⁻¹ 1 := by
    simpa [lastAccepted, Event.accepts, solvedCall, hsave, hdelta, hstart, unitSteps] using htime
  exact (lt_max_of_lt_right one_pos).ne hzero

end Qucs.Transient
