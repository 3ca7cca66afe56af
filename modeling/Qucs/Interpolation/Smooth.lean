/-
# Natural and clamped splines

The loops of `construct` leave in every slot the coefficients of a piece that has
`z` for half of its second derivatives (`sweep_coefficients`), so the pieces meet
whatever `z` is, and the equations of the knots are left (`Lib.CubicSpline`). The
elimination keeps `u` between 0 and 1/2, so its pivots are positive
(`eliminated_spec`), and with the back substitution `z` solves these equations
(`moments_row`).
-/
import Qucs.Interpolation.Construct

namespace Qucs.Interpolation

open Lib.InPlace Lib.CubicSpline Polynomial List

variable {K : Type*} [Field K]

namespace Spline

variable (s : Spline K)

noncomputable def cubicPiece (i : ℕ) : K[X] := cubic (s.x i) (s.f0 i) (s.f1 i) (s.f2 i) (s.f3 i)

/-- The boundary condition of a spline, for its pieces. -/
def AtEnds (S : ℕ → K[X]) : Prop :=
  match s.boundary with
  | .natural => (S 0).derivative.derivative.eval (s.x 0) = 0 ∧
      (S (s.n - 1)).derivative.derivative.eval (s.x s.n) = 0
  | .clamped => (S 0).derivative.eval (s.x 0) = s.d0 ∧
      (S (s.n - 1)).derivative.eval (s.x s.n) = s.dn
  | .periodic => (S 0).eval (s.x 0) = (S (s.n - 1)).eval (s.x s.n) ∧
      (S 0).derivative.eval (s.x 0) = (S (s.n - 1)).derivative.eval (s.x s.n) ∧
      (S 0).derivative.derivative.eval (s.x 0) = (S (s.n - 1)).derivative.derivative.eval (s.x s.n)

/-! ## The coefficients -/

variable {s} (zs : ℕ → (ℕ → Slot K) → K) (m : ℕ → Slot K) {i : ℕ}

/-- What a loop that computes the coefficients leaves in a slot. -/
theorem sweep_coefficients (hi : i < s.n) :
    ∃ m', m' i = m i ∧
      m' (i + 1) = sweep (List.range s.n).reverse id (fun i m => s.coefficients i m (zs i m)) m
        (i + 1) ∧
      sweep (List.range s.n).reverse id (fun i m => s.coefficients i m (zs i m)) m i =
        s.coefficients i m' (zs i m') := by
  obtain ⟨m', hval, hdone, hout⟩ := sweep_reverse id (fun i m => s.coefficients i m (zs i m)) m
    (fun _ _ _ _ h => h) hi
  refine ⟨m', hout i fun j hj _ => Nat.ne_of_gt hj, ?_, hval⟩
  rcases Nat.lt_or_ge (i + 1) s.n with hlt | hge
  · exact hdone (i + 1) (Nat.lt_succ_self i) hlt
  · rw [hout (i + 1) fun j hj hjn => absurd hjn (by omega), sweep_of_ne]
    intro j hj
    have hjn := mem_range.mp (mem_reverse.mp hj)
    exact Nat.ne_of_lt (Nat.lt_of_lt_of_le hjn hge)

/-- They are those of a piece with `z` for half of its second derivatives. -/
theorem sweep_coefficients_eq (hm : ∀ i < s.n, (m i).h = s.width i) (hi : i < s.n) :
    let M := sweep (range s.n).reverse id (fun i m => s.coefficients i m (zs i m)) m
    (M i).u = incline s.x s.f0 (fun j => (M j).z) i ∧ (M i).h = bend s.x (fun j => (M j).z) i := by
  intro M
  obtain ⟨m', hself, hnext, hM⟩ := sweep_coefficients zs m hi
  have hz : (M i).z = zs i m' := congrArg Slot.z hM
  have hu := congrArg Slot.u hM
  have hh := congrArg Slot.h hM
  simp only [coefficients, hself, hnext, hm i hi, width] at hu hh
  constructor
  · simp only [incline, chord, hz]
    exact hu
  · simp only [bend, hz]
    exact hh

/-! ## Natural and clamped splines -/

section First

def forward (s : Spline K) : ℕ → Slot K :=
  sweep (List.range' 1 (s.n - 1)) id eliminate s.initialSlots

theorem forward_zero : s.forward 0 = s.firstSlot := by
  rw [forward, sweep_of_ne]
  · rfl
  · intro j hj
    exact Nat.ne_of_gt (mem_range'_1.mp hj).1

/-- A round of the elimination reads the slot before and its own. -/
theorem forward_succ (hi : i + 1 < s.n) :
    ∃ m', m' i = s.forward i ∧ m' (i + 1) = ⟨0, s.innerRhs (i + 1), s.width (i + 1)⟩ ∧
      s.forward (i + 1) = eliminate (i + 1) m' := by
  obtain ⟨m', hval, hdone, hout⟩ := sweep_range' id eliminate s.initialSlots
    (fun _ _ _ _ h => h) (Nat.le_add_left 1 i) (show i + 1 < 1 + (s.n - 1) by omega)
  refine ⟨m', ?_, ?_, hval⟩
  · cases i with
    | zero =>
      rw [hout 0 fun j hj _ => Nat.ne_of_gt hj, forward_zero]
      rfl
    | succ i => exact hdone (i + 1) (Nat.le_add_left 1 i) (Nat.lt_succ_self _)
  · rw [hout (i + 1) fun j _ hj => Nat.ne_of_lt hj]
    simp only [initialSlots, if_neg (Nat.succ_ne_zero i), if_pos hi]

def pivot (s : Spline K) (i : ℕ) : K :=
  2 * (s.width (i + 1) + s.width i) - s.width i * (s.forward i).u

theorem forward_succ_eq (hh : (s.forward i).h = s.width i) (hi : i + 1 < s.n) :
    s.forward (i + 1) =
      { u := s.width (i + 1) / s.pivot i
        z := (s.innerRhs (i + 1) - (s.forward i).z * s.width i) / s.pivot i
        h := s.width (i + 1) } := by
  obtain ⟨m', hprev, hself, hval⟩ := forward_succ hi
  rw [hval, eliminate]
  simp only [Nat.add_sub_cancel, hprev, hself, hh, pivot]

def moments (s : Spline K) (i : ℕ) : K := (s.substituted i).z

theorem eliminated_of_lt (hi : i < s.n) : s.eliminated i = s.forward i :=
  Function.update_of_ne (Nat.ne_of_lt hi) _ _

theorem moments_last : s.moments s.n = s.lastZ s.forward := by
  rw [moments, substituted, sweep_of_ne, eliminated, Function.update_self]
  · rfl
  · intro j hj
    exact Nat.ne_of_lt (mem_range.mp (mem_reverse.mp hj))

theorem moments_of_lt (hi : i < s.n) :
    s.moments i = (s.forward i).z - (s.forward i).u * s.moments (i + 1) := by
  obtain ⟨m', hself, hnext, hM⟩ := sweep_coefficients
    (fun i m => (m i).z - (m i).u * (m (i + 1)).z) s.eliminated hi
  have hz := congrArg Slot.z hM
  simp only [coefficients, hself, hnext, eliminated_of_lt hi] at hz
  exact hz

section Ordered

variable [LinearOrder K] [IsStrictOrderedRing K] (hw : ∀ i < s.n, 0 < s.width i)
include hw

theorem forward_spec (hi : i < s.n) :
    (s.forward i).h = s.width i ∧ 0 ≤ (s.forward i).u ∧ (s.forward i).u ≤ 1 / 2 := by
  induction i with
  | zero =>
    have hpos := hw 0 hi
    rw [forward_zero, firstSlot]
    cases s.boundary with
    | clamped =>
      have hhalf : s.width 0 / (2 * s.width 0) = 1 / 2 := by field_simp
      exact ⟨rfl, by rw [hhalf]; norm_num, hhalf.le⟩
    | natural | periodic => exact ⟨rfl, le_rfl, by norm_num⟩
  | succ i ih =>
    obtain ⟨hh, hlo, hhi⟩ := ih (by omega)
    have hpos := hw (i + 1) hi
    have hpos' := hw i (by omega)
    have hp : 2 * s.width (i + 1) ≤ s.pivot i := by
      rw [pivot]
      nlinarith
    rw [forward_succ_eq hh hi]
    refine ⟨rfl, div_nonneg hpos.le (by linarith), ?_⟩
    rw [div_le_iff₀ (by linarith)]
    linarith

theorem pivot_pos (hi : i + 1 < s.n) : 0 < s.pivot i := by
  obtain ⟨-, -, hhi⟩ := forward_spec hw (i := i) (by omega)
  have hpos := hw (i + 1) hi
  have hpos' := hw i (by omega)
  rw [pivot]
  nlinarith

theorem innerRhs_eq (hi : i + 1 < s.n) :
    s.innerRhs (i + 1) = 3 * (chord s.x s.f0 (i + 1) - chord s.x s.f0 i) := by
  have hpos : s.x (i + 1 + 1) - s.x (i + 1) ≠ 0 := (hw (i + 1) hi).ne'
  have hpos' : s.x (i + 1) - s.x i ≠ 0 := (hw i (by omega)).ne'
  simp only [innerRhs, Nat.add_sub_cancel, width, chord]
  field_simp
  ring

/-- **The equation of an inner knot.** -/
theorem moments_row (hi : i + 1 < s.n) :
    s.width i * s.moments i + 2 * (s.width i + s.width (i + 1)) * s.moments (i + 1) +
      s.width (i + 1) * s.moments (i + 2) = 3 * (chord s.x s.f0 (i + 1) - chord s.x s.f0 i) := by
  have hp := (pivot_pos hw hi).ne'
  have hstep := forward_succ_eq (forward_spec hw (by omega)).1 hi
  have hu : s.pivot i * (s.forward (i + 1)).u = s.width (i + 1) := by
    rw [hstep]
    exact mul_div_cancel₀ _ hp
  have hz : s.pivot i * (s.forward (i + 1)).z =
      s.innerRhs (i + 1) - (s.forward i).z * s.width i := by
    rw [hstep]
    exact mul_div_cancel₀ _ hp
  have hprev := moments_of_lt (s := s) (i := i) (by omega)
  have hself := moments_of_lt (s := s) hi
  rw [← innerRhs_eq hw hi]
  have hpivot : s.pivot i = 2 * (s.width (i + 1) + s.width i) - s.width i * (s.forward i).u := rfl
  linear_combination s.width i * hprev + s.pivot i * hself + hz - s.moments (i + 2) * hu -
    s.moments (i + 1) * hpivot

theorem cubicPiece_constructFirst (hi : i < s.n) :
    s.constructFirst.cubicPiece i = piece s.x s.f0 s.moments i := by
  obtain ⟨hu, hh⟩ := sweep_coefficients_eq (fun i m => (m i).z - (m i).u * (m (i + 1)).z)
    s.eliminated (fun i hi => by rw [eliminated_of_lt hi, (forward_spec hw hi).1]) hi
  simp only [cubicPiece, constructFirst, Function.update_of_ne (Nat.ne_of_lt hi)]
  exact congrArg₂ (fun u h => cubic (s.x i) (s.f0 i) u (s.moments i) h) hu hh

theorem constructFirst_isSpline : IsSpline s.n s.x s.f0 s.constructFirst.cubicPiece :=
  IsSpline.congr ((isSpline_piece_iff fun i hi => (hw i hi).ne').mpr
    fun _ hi => moments_row hw hi) fun _ hi => cubicPiece_constructFirst hw hi

/-- A clamped spline starts with the first derivative given. -/
theorem incline_first (hn : 0 < s.n) (hb : s.boundary = .clamped) :
    incline s.x s.f0 s.moments 0 = s.d0 := by
  have hpos := hw 0 hn
  have hslope : chord s.x s.f0 0 = (s.f0 1 - s.f0 0) / s.width 0 := rfl
  have hfirst := moments_of_lt hn
  rw [forward_zero, firstSlot, hb] at hfirst
  have hwidth : s.x (0 + 1) - s.x 0 = s.width 0 := rfl
  rw [incline, hwidth, hfirst, ← hslope]
  field_simp
  ring

omit [LinearOrder K] [IsStrictOrderedRing K] hw in
theorem forward_last (hn : 0 < s.n) : s.forward s.n = ⟨0, s.lastRhs, 0⟩ := by
  rw [forward, sweep_of_ne]
  · simp only [initialSlots, if_neg (Nat.ne_of_gt hn), lt_irrefl, if_false]
  · intro j hj
    have hjn := (mem_range'_1.mp hj).2
    exact Nat.ne_of_lt (show j < s.n by omega)

theorem derivative_last (hn : i + 1 = s.n) (hb : s.boundary = .clamped) :
    chord s.x s.f0 i + s.width i * (2 * s.moments (i + 1) + s.moments i) / 3 = s.dn := by
  have hi : i < s.n := by omega
  have hpos := hw i hi
  obtain ⟨hh, -, hhi⟩ := forward_spec hw hi
  have hpivot : s.width i * (2 - (s.forward i).u) ≠ 0 := (mul_pos hpos (by linarith)).ne'
  have hlast : s.width i * (2 - (s.forward i).u) * s.moments (i + 1) =
      3 * (s.dn - chord s.x s.f0 i) - (s.forward i).z * s.width i := by
    have hpred : s.n - 1 = i := by omega
    rw [hn, moments_last, lastZ, hb, hpred, forward_last (by omega), hh, lastRhs, hb, hpred]
    rw [mul_div_cancel₀ _ hpivot, ← hn]
    rfl
  have hprev := moments_of_lt hi
  linear_combination (1 / 3) * hlast + s.width i / 3 * hprev

theorem constructFirst_atEnds (hn : 0 < s.n) (hb : s.boundary ≠ .periodic) :
    s.AtEnds s.constructFirst.cubicPiece := by
  obtain ⟨k, hk⟩ : ∃ k, k + 1 = s.n := ⟨s.n - 1, by omega⟩
  have hpred : s.n - 1 = k := by omega
  have hlast := (hw k (by omega)).ne'
  rw [AtEnds, hpred, cubicPiece_constructFirst hw hn,
    cubicPiece_constructFirst hw (by omega : k < _),
    ← hk, second_left, second_right hlast, derivative_left, derivative_right hlast, hk]
  cases hbound : s.boundary with
  | natural =>
    have hfirst := moments_of_lt hn
    rw [forward_zero, firstSlot, hbound] at hfirst
    simp only [moments_last, lastZ, hbound, hfirst]
    exact ⟨by ring, by ring⟩
  | clamped => exact ⟨incline_first hw hn hbound, hk ▸ derivative_last hw hk hbound⟩
  | periodic => exact absurd hbound hb

/-- The slot for extrapolation has the slope at the last knot. -/
theorem constructFirst_f1_last (hn : i + 1 = s.n) (hb : s.boundary ≠ .periodic) :
    s.constructFirst.f1 s.n = (s.constructFirst.cubicPiece i).derivative.eval (s.x s.n) := by
  have hi : i < s.n := by omega
  have hpred : s.n - 1 = i := by omega
  have hu := (sweep_coefficients_eq (fun i m => (m i).z - (m i).u * (m (i + 1)).z)
    s.eliminated (fun i hi => by rw [eliminated_of_lt hi, (forward_spec hw hi).1]) hi).1
  have hu' : (s.substituted i).u = incline s.x s.f0 s.moments i := hu
  rw [cubicPiece_constructFirst hw hi, ← hn, derivative_right (hw i hi).ne']
  simp only [constructFirst, hn, hpred, Function.update_self]
  cases hbound : s.boundary with
  | natural =>
    have hlast : s.moments (i + 1) = 0 := by rw [hn, moments_last, lastZ, hbound]
    have hz : (s.substituted i).z = s.moments i := rfl
    simp only [hu', hz, incline, hlast, ← hn]
    ring
  | clamped =>
    rw [← hn]
    exact (derivative_last hw hn hbound).symm
  | periodic => exact absurd hbound hb

end Ordered

end First

/-! ## Evaluation -/

section Evaluate

variable [LinearOrder K]

omit [Field K] in
/-- The binary search: below the index no value is greater, from it on all are. -/
theorem upperBound_spec (x : ℕ → K) (first len : ℕ) (value : K)
    (hx : ∀ i j, first ≤ i → i ≤ j → j < first + len → x i ≤ x j) :
    first ≤ upperBound x first len value ∧ upperBound x first len value ≤ first + len ∧
      (∀ j, first ≤ j → j < upperBound x first len value → x j ≤ value) ∧
      ∀ j, upperBound x first len value ≤ j → j < first + len → value < x j := by
  fun_induction upperBound x first len value with
  | case1 first => exact ⟨le_rfl, le_rfl, fun j h h' => absurd h (by omega), fun j h h' => by omega⟩
  | case2 first len hlen hlt ih =>
    obtain ⟨hlo, hhi, hbelow, habove⟩ := ih fun i j h hij hj => hx i j h hij (by omega)
    refine ⟨hlo, by omega, hbelow, fun j hj hj' => ?_⟩
    rcases Nat.lt_or_ge j (first + len / 2) with hleft | hright
    · exact habove j hj hleft
    · exact lt_of_lt_of_le hlt (hx _ _ (by omega) hright hj')
  | case3 first len hlen hge ih =>
    obtain ⟨hlo, hhi, hbelow, habove⟩ := ih fun i j h hij hj => hx i j (by omega) hij (by omega)
    refine ⟨by omega, by omega, fun j hj hj' => ?_, fun j hj hj' => habove j hj (by omega)⟩
    rcases Nat.lt_or_ge (first + len / 2) j with hright | hleft
    · exact hbelow j hright hj'
    · exact (hx _ _ hj hleft (by omega)).trans (not_lt.mp hge)

section Knots

variable {x : ℕ → K} {n : ℕ} (hx : ∀ i < n, x i < x (i + 1))
include hx

omit [Field K] in
theorem knots_le {j : ℕ} (hij : i ≤ j) (hj : j ≤ n) : x i ≤ x j := by
  induction j, hij using Nat.le_induction with
  | base => exact le_rfl
  | succ j _ ih => exact (ih (by omega)).trans (hx j (by omega)).le

omit [Field K] in
theorem upperBound_knots {t : K} (hi : i ≤ n) (hlo : x i ≤ t)
    (hhi : i < n → t < x (i + 1)) : upperBound x 0 (n + 1) t = i + 1 := by
  obtain ⟨-, hlast, hbelow, habove⟩ := upperBound_spec x 0 (n + 1) t
    fun i j _ hij hj => knots_le hx hij (by omega)
  have hgt : i < upperBound x 0 (n + 1) t := by
    by_contra hle
    exact absurd (habove i (by omega) (by omega)) (not_lt.mpr hlo)
  rcases Nat.lt_or_ge i n with hlt | hge
  · by_contra hne
    exact absurd (hbelow (i + 1) (Nat.zero_le _) (by omega)) (not_le.mpr (hhi hlt))
  · omega

end Knots

variable (hx : ∀ i < s.n, s.x i < s.x (i + 1))
include hx

theorem lookup_eq {t : K} (hi : i < s.n) (hlo : s.x i ≤ t) (hhi : t < s.x (i + 1)) :
    s.lookup t = ⟨t, (s.cubicPiece i).eval t, (s.cubicPiece i).derivative.eval t,
      (s.cubicPiece i).derivative.derivative.eval t⟩ := by
  rw [lookup, upperBound_knots hx hi.le hlo fun _ => hhi]
  simp [cubicPiece]

theorem lookup_last : s.lookup (s.x s.n) = ⟨s.x s.n, s.f0 s.n, s.f1 s.n, 2 * s.f2 s.n⟩ := by
  rw [lookup, upperBound_knots hx le_rfl le_rfl fun h => absurd h (lt_irrefl _)]
  simp

end Evaluate

/-- **Natural and clamped splines are cubic splines**: the pieces interpolate the
points, fit together with two derivatives and fulfil the boundary condition, and
`evaluate` returns their values and derivatives. -/
theorem construct_isSpline [LinearOrder K] [IsStrictOrderedRing K] (s : Spline K) (hn : 0 < s.n)
    (hx : ∀ i < s.n, s.x i < s.x (i + 1)) (hb : s.boundary ≠ .periodic) :
    IsSpline s.n s.x s.f0 s.construct.cubicPiece ∧ s.AtEnds s.construct.cubicPiece ∧
      ∀ fuel, (∀ i < s.n, ∀ t, s.x i ≤ t → t < s.x (i + 1) → s.construct.evaluate fuel t =
          some ⟨t, (s.construct.cubicPiece i).eval t, (s.construct.cubicPiece i).derivative.eval t,
            (s.construct.cubicPiece i).derivative.derivative.eval t⟩) ∧
        ∃ p, s.construct.evaluate fuel (s.x s.n) = some p ∧ p.f0 = s.f0 s.n ∧
          p.f1 = (s.construct.cubicPiece (s.n - 1)).derivative.eval (s.x s.n) := by
  have hw : ∀ i < s.n, 0 < s.width i := fun i hi => sub_pos.mpr (hx i hi)
  have hfirst : s.construct = s.constructFirst := by
    rw [construct]
    cases hbound : s.boundary with
    | natural | clamped => rfl
    | periodic => exact absurd hbound hb
  have heval : ∀ fuel t, s.constructFirst.evaluate fuel t = some (s.constructFirst.lookup t) := by
    intro fuel t
    have hbound : s.constructFirst.boundary = s.boundary := rfl
    rw [evaluate, hbound]
    cases hbound : s.boundary with
    | natural | clamped => rfl
    | periodic => exact absurd hbound hb
  rw [hfirst]
  refine ⟨constructFirst_isSpline hw, constructFirst_atEnds hw hn hb, fun fuel => ⟨?_, ?_⟩⟩
  · intro i hi t hlo hhi
    rw [heval, lookup_eq (s := s.constructFirst) hx hi hlo hhi]
  · refine ⟨_, (heval fuel _).trans (congrArg some (lookup_last hx)), rfl, ?_⟩
    exact constructFirst_f1_last hw (by omega) hb

/-- Three points, of which the last one is as high as the first one. -/
def hill (boundary : Boundary) : Spline ℚ where
  n := 2
  x := fun i => i
  f0 := fun i => if i = 1 then 1 else 0
  f1 := 0
  f2 := 0
  f3 := 0
  d0 := 1
  dn := 2
  boundary := boundary

theorem construct_isSpline_hill :
    IsSpline 2 (hill .clamped).x (hill .clamped).f0 (hill .clamped).construct.cubicPiece ∧
      ((hill .clamped).construct.cubicPiece 0).derivative.eval 0 = 1 ∧
      ((hill .clamped).construct.cubicPiece 1).derivative.eval 2 = 2 := by
  obtain ⟨hspline, hends, -⟩ := construct_isSpline (hill .clamped) (by decide)
    (fun i _ => by simp [hill]) (by decide)
  exact ⟨hspline, by simpa [hill, AtEnds] using hends⟩

end Spline

end Qucs.Interpolation
