/-
# Periodic splines

The equations of a periodic spline are cyclic: the last piece is followed by the
first one. `construct` sets them up and solves them in a copy of `z`; the
coefficients come from `z`, which still holds the right-hand side

    kink i = 3 · (slope behind knot i - slope before knot i)

So the pieces go through the points and have a continuous second derivative, but
their first derivatives agree only where the kinks themselves solve the equations
(`constructPeriodic_isSpline_iff`).
-/
import Qucs.Interpolation.Smooth

namespace Qucs.Interpolation

open Lib.InPlace Lib.CubicSpline Polynomial

variable {K : Type*} [Field K]

namespace Spline

variable (s : Spline K) {i : ℕ}

/-- The right-hand side of the equation of a knot; the first and the last knot are
the same. -/
def kink (i : ℕ) : K :=
  if i = 0 ∨ i = s.n then 3 * (chord s.x s.f0 0 - chord s.x s.f0 (s.n - 1))
  else 3 * (chord s.x s.f0 i - chord s.x s.f0 (i - 1))

/-- A table solves the cyclic equations. -/
structure SolvesCyclic (c : ℕ → K) : Prop where
  inner : ∀ i, i + 1 < s.n →
    s.width i * c i + 2 * (s.width i + s.width (i + 1)) * c (i + 1) + s.width (i + 1) * c (i + 2) =
      s.kink (i + 1)
  outer : s.width (s.n - 1) * c (s.n - 1) + 2 * (s.width (s.n - 1) + s.width 0) * c 0 +
    s.width 0 * c 1 = s.kink 0

variable {s}

theorem cyclicRhs_eq_kink (hn : 0 < i) (hi : i ≤ s.n) (hclosed : s.f0 0 = s.f0 s.n) :
    s.cyclicRhs i = s.kink i := by
  obtain ⟨k, rfl⟩ : ∃ k, i = k + 1 := ⟨i - 1, by omega⟩
  rcases Nat.lt_or_ge (k + 1) s.n with hlt | hge
  · rw [cyclicRhs, if_pos hlt, kink, if_neg (by omega)]
    rfl
  · have hlast : k + 1 = s.n := Nat.le_antisymm hi hge
    have hslope : (s.f0 1 - s.f0 (k + 1)) / s.width 0 = chord s.x s.f0 0 := by
      rw [hlast, ← hclosed]
      rfl
    rw [cyclicRhs, if_neg (by omega), kink, if_pos (.inr hlast), hslope, ← hlast]
    rfl

theorem periodicZ_eq_kink (hn : 3 ≤ s.n) (hi : i ≤ s.n) (hclosed : s.f0 0 = s.f0 s.n) :
    s.periodicZ i = s.kink i := by
  rw [periodicZ, if_neg (by omega)]
  by_cases h0 : i = 0
  · have hends : s.kink 0 = s.kink s.n := by rw [kink, if_pos (.inl rfl), kink, if_pos (.inr rfl)]
    rw [if_pos h0, cyclicRhs_eq_kink (by omega) le_rfl hclosed, h0, hends]
  · rw [if_neg h0, cyclicRhs_eq_kink (by omega) hi hclosed]

/-! ## The pieces -/

def periodicSlots (s : Spline K) : ℕ → Slot K :=
  sweep (List.range s.n).reverse id (fun i m => s.coefficients i m (m i).z)
    fun i => { u := 0, z := s.periodicZ i, h := s.width i }

theorem periodicSlots_z (hi : i ≤ s.n) : (s.periodicSlots i).z = s.periodicZ i := by
  rcases Nat.lt_or_ge i s.n with hlt | hge
  · obtain ⟨m', hself, -, hM⟩ := sweep_coefficients (fun i m => (m i).z)
      (fun i => ⟨0, s.periodicZ i, s.width i⟩) hlt
    exact (congrArg Slot.z hM).trans (congrArg Slot.z hself)
  · rw [periodicSlots, sweep_of_ne]
    intro j hj
    have hjn := List.mem_range.mp (List.mem_reverse.mp hj)
    exact Nat.ne_of_lt (show j < i by omega)

theorem cubicPiece_constructPeriodic (hi : i < s.n) :
    s.constructPeriodic.cubicPiece i = piece s.x s.f0 s.periodicZ i := by
  obtain ⟨hu, hh⟩ := sweep_coefficients_eq (fun i m => (m i).z)
    (fun i => ⟨0, s.periodicZ i, s.width i⟩) (fun _ _ => rfl) hi
  have hz := periodicSlots_z hi.le
  have hz' := periodicSlots_z hi
  have hu' : (s.periodicSlots i).u = incline s.x s.f0 s.periodicZ i := by
    refine hu.trans ?_
    simp only [incline]
    rw [← hz, ← hz']
    rfl
  have hh' : (s.periodicSlots i).h = bend s.x s.periodicZ i := by
    refine hh.trans ?_
    simp only [bend]
    rw [← hz, ← hz']
    rfl
  simp only [cubicPiece, constructPeriodic, Function.update_of_ne (Nat.ne_of_lt hi)]
  rw [piece, ← hu', ← hh', ← hz]
  rfl

section Ordered

variable [LinearOrder K] [IsStrictOrderedRing K] (hx : ∀ i < s.n, s.x i < s.x (i + 1))
include hx

/-- **What is smooth**: the pieces with `z` for half of their second derivatives are a
periodic spline iff `z` solves the cyclic equations. -/
theorem constructPeriodic_iff (hb : s.boundary = .periodic) (hn : 2 ≤ s.n)
    (hclosed : s.f0 0 = s.f0 s.n) (hz : s.periodicZ 0 = s.periodicZ s.n) :
    (IsSpline s.n s.x s.f0 s.constructPeriodic.cubicPiece ∧
      s.AtEnds s.constructPeriodic.cubicPiece) ↔ s.SolvesCyclic s.periodicZ := by
  have hw := fun i hi => (sub_pos.mpr (hx i hi)).ne'
  obtain ⟨k, hk⟩ : ∃ k, k + 1 = s.n := ⟨s.n - 1, by omega⟩
  have hpred : s.n - 1 = k := by omega
  have hspline : IsSpline s.n s.x s.f0 s.constructPeriodic.cubicPiece ↔
      IsSpline s.n s.x s.f0 (piece s.x s.f0 s.periodicZ) :=
    ⟨fun h => h.congr fun i hi => (cubicPiece_constructPeriodic hi).symm,
      fun h => h.congr fun i hi => cubicPiece_constructPeriodic hi⟩
  have hkinks : ∀ i, i + 1 < s.n →
      s.kink (i + 1) = 3 * (chord s.x s.f0 (i + 1) - chord s.x s.f0 i) := by
    intro i hi
    rw [kink, if_neg (by omega)]
    rfl
  have hends : s.AtEnds s.constructPeriodic.cubicPiece ↔
      s.width k * s.periodicZ k + 2 * (s.width k + s.width 0) * s.periodicZ 0 +
        s.width 0 * s.periodicZ 1 = s.kink 0 := by
    rw [AtEnds, hb, hpred, cubicPiece_constructPeriodic (by omega : 0 < s.n),
      cubicPiece_constructPeriodic (by omega : k < s.n), ← hk, piece_left,
      piece_right (hw k (by omega)), second_left, second_right (hw k (by omega)),
        hk, ← hclosed, ← hz,
      kink, if_pos (.inl rfl), hpred]
    have hfirst := derivative_eq_iff (y := s.f0) (hw k (by omega)) (show s.periodicZ (k + 1) =
      s.periodicZ 0 by rw [hk, hz])
    simp only [true_and, and_true]
    rw [eq_comm, ← hk]
    exact hfirst
  rw [hspline, hends, isSpline_piece_iff hw]
  constructor
  · rintro ⟨hinner, houter⟩
    exact ⟨fun i hi => (hinner i hi).trans (hkinks i hi).symm, by rwa [hpred]⟩
  · rintro ⟨hinner, houter⟩
    exact ⟨fun i hi => (hinner i hi).trans (hkinks i hi), by rwa [hpred] at houter⟩

omit [LinearOrder K] [IsStrictOrderedRing K] hx in
theorem SolvesCyclic.congr {c c' : ℕ → K} (h : s.SolvesCyclic c) (hn : 2 ≤ s.n)
    (hc : ∀ i ≤ s.n, c' i = c i) : s.SolvesCyclic c' where
  inner i hi := by
    rw [hc i (by omega), hc (i + 1) (by omega), hc (i + 2) (by omega)]
    exact h.inner i hi
  outer := by
    rw [hc (s.n - 1) (by omega), hc 0 (by omega), hc 1 (by omega)]
    exact h.outer

omit [IsStrictOrderedRing K] in
/-- Inside its period a periodic spline evaluates the piece there. -/
theorem evaluate_periodic (hb : s.boundary = .periodic) (fuel : ℕ) {t : K} (hi : i < s.n)
    (hlo : s.x i ≤ t) (hhi : t < s.x (i + 1)) :
    s.evaluate (fuel + 1) t = some ⟨t, (s.cubicPiece i).eval t, (s.cubicPiece i).derivative.eval t,
      (s.cubicPiece i).derivative.derivative.eval t⟩ := by
  have hlast := not_lt.mpr (hhi.le.trans (knots_le hx hi le_rfl))
  have hfirst := not_lt.mpr ((knots_le hx (Nat.zero_le i) hi.le).trans hlo)
  simp only [evaluate, hb, fromAbove, fromBelow, if_neg hlast, if_neg hfirst, Option.bind_eq_bind,
    Option.bind_some, Option.pure_def]
  rw [lookup_eq hx hi hlo hhi]

end Ordered

/-- **A periodic spline with at least four points is smooth iff the kinks solve
the equations of which they are the right-hand side.** -/
theorem constructPeriodic_isSpline_iff [LinearOrder K] [IsStrictOrderedRing K] (s : Spline K)
    (hn : 3 ≤ s.n) (hx : ∀ i < s.n, s.x i < s.x (i + 1)) (hb : s.boundary = .periodic)
    (hclosed : s.f0 0 = s.f0 s.n) :
    (IsSpline s.n s.x s.f0 s.construct.cubicPiece ∧ s.AtEnds s.construct.cubicPiece ∧
      ∀ fuel, ∀ i < s.n, ∀ t, s.x i ≤ t → t < s.x (i + 1) → s.construct.evaluate (fuel + 1) t =
        some ⟨t, (s.construct.cubicPiece i).eval t, (s.construct.cubicPiece i).derivative.eval t,
          (s.construct.cubicPiece i).derivative.derivative.eval t⟩) ↔
      s.SolvesCyclic s.kink := by
  have hkind : s.construct = s.constructPeriodic := by rw [construct, hb]
  have hkink : ∀ i ≤ s.n, s.periodicZ i = s.kink i := fun i hi => periodicZ_eq_kink hn hi hclosed
  have hends : s.periodicZ 0 = s.periodicZ s.n := by
    rw [hkink 0 (by omega), hkink s.n le_rfl, kink, if_pos (.inl rfl), kink, if_pos (.inr rfl)]
  have hiff := constructPeriodic_iff hx hb (by omega) hclosed hends
  rw [hkind]
  constructor
  · rintro ⟨hspline, hatEnds, -⟩
    exact (hiff.mp ⟨hspline, hatEnds⟩).congr (by omega) fun i hi => (hkink i hi).symm
  · intro h
    obtain ⟨hspline, hatEnds⟩ := hiff.mpr (h.congr (by omega) hkink)
    exact ⟨hspline, hatEnds, fun fuel i hi t hlo hhi =>
      evaluate_periodic (s := s.constructPeriodic) hx hb fuel hi hlo hhi⟩

/-- The values 0, 1, 0, 0 at points that are `h` apart. -/
def fourPoints (h : ℚ) : Spline ℚ where
  n := 3
  x := fun i => h * i
  f0 := fun i => if i = 1 then 1 else 0
  f1 := 0
  f2 := 0
  f3 := 0
  d0 := 0
  dn := 0
  boundary := .periodic

/-- At 0, 1/3, 2/3 and 1 the kinks 9, -18, 9 solve the equations. -/
theorem constructPeriodic_thirds : IsSpline 3 (fourPoints (1 / 3)).x (fourPoints (1 / 3)).f0
    (fourPoints (1 / 3)).construct.cubicPiece := by
  have hx : ∀ i < 3, (fourPoints (1 / 3)).x i < (fourPoints (1 / 3)).x (i + 1) := by decide +kernel
  have hcyclic : (fourPoints (1 / 3)).SolvesCyclic (fourPoints (1 / 3)).kink := by
    refine ⟨fun i hi => ?_, by decide +kernel⟩
    obtain rfl | rfl : i = 0 ∨ i = 1 := by
      have : i + 1 < 3 := hi
      omega
    all_goals decide +kernel
  exact ((constructPeriodic_isSpline_iff (fourPoints (1 / 3)) le_rfl hx rfl rfl).mpr hcyclic).1

/-- One step apart, the first derivatives at the second point are -2 and 2. -/
theorem constructPeriodic_kinked : ¬ IsSpline 3 (fourPoints 1).x (fourPoints 1).f0
    (fourPoints 1).construct.cubicPiece := by
  intro h
  have hfirst := h.first 0 (by decide)
  have hkind : (fourPoints 1).construct = (fourPoints 1).constructPeriodic := rfl
  rw [hkind, cubicPiece_constructPeriodic (by decide), cubicPiece_constructPeriodic (by decide),
    derivative_eq_iff (by simp [fourPoints]) rfl] at hfirst
  norm_num [fourPoints, periodicZ, cyclicRhs, width, chord] at hfirst

end Spline

end Qucs.Interpolation
