/-
# Interpolation with repetition

`interpolator.cpp`, for real values.

* interpolator: `Interpolator`, with the spline of `prepare` as a function
* interpolator::findIndex: `findIndex`, by the search `upperBound` of the splines

With repetition the argument is reduced to the range from 0 to the duration, and the
data are looked up there, not from the first abscissa on. An argument of the data that is
moved is looked up on the first line if it was too large, and on the last one if it was
negative. So the data are repeated iff these lines continue the data
(`Repeats`, `cyclic_interpolation_iff`).
-/
import Qucs.Interpolation.Smooth

namespace Qucs.Interpolation

/-- INTERPOL_LINEAR, INTERPOL_CUBIC and INTERPOL_HOLD. -/
inductive InterpolType where
  | linear
  | cubic
  | hold
  deriving DecidableEq, Repr

/-- The data, and how they are interpolated. -/
structure Interpolator (K : Type*) where
  length : ℕ
  rx : ℕ → K
  ry : ℕ → K
  interpolType : InterpolType
  repetition : Bool
  duration : K
  rsp : K → K

namespace Interpolator

variable {K : Type*} [Field K] [LinearOrder K]

/-- The first value is put to the end of the values that are repeated. -/
def prepare (s : Interpolator K) (interpol : InterpolType) (repetition : Bool) : Interpolator K :=
  let s := { s with interpolType := interpol, repetition }
  if repetition then
    { s with
      duration := s.rx (s.length - 1) - s.rx 0
      ry := Function.update s.ry (s.length - 1) (s.ry 0) }
  else s

variable (s : Interpolator K)

/-- The last point that is not greater, or the first one. -/
def findIndex (x : K) : ℕ :=
  let lo := upperBound s.rx 0 s.length x
  if lo ≤ s.length ∧ 0 < lo ∧ s.rx (lo - 1) ≤ x then lo - 1 else 0

/-- The line through two points. -/
def linear (x x1 x2 y1 y2 : K) : K :=
  if x1 = x2 then (y1 + y2) / 2 else ((x2 - x) * y1 + (x - x1) * y2) / (x2 - x1)

def rlinear (x : K) (idx : ℕ) : K :=
  linear x (s.rx idx) (s.rx (idx + 1)) (s.ry idx) (s.ry (idx + 1))

/-- Beyond the last point the last tangent is used. -/
def lookup (x : K) : K :=
  match s.interpolType with
  | .linear =>
    let idx := s.findIndex x
    if x = s.rx idx then s.ry idx
    else s.rlinear x (if idx = s.length - 1 then idx - 1 else idx)
  | .cubic => s.rsp x
  | .hold => s.ry (s.findIndex x)

variable [FloorRing K]

/-- The value at `x`, of the data that are repeated or not. -/
def rinterpolate (x : K) : K :=
  if s.length = 0 then 0
  else if s.length = 1 then s.ry 0
  else s.lookup (if s.repetition then x - ⌊x / s.duration⌋ * s.duration else x)

variable {s} {type : InterpolType}

omit [FloorRing K] in
theorem lookup_prepare (hy : s.ry 0 = s.ry (s.length - 1)) (t : K) :
    (s.prepare type true).lookup t = (s.prepare type false).lookup t := by
  have hry : Function.update s.ry (s.length - 1) (s.ry 0) = s.ry := by
    rw [hy, Function.update_eq_self]
  simp only [prepare, hry]
  rfl

section Data

variable (hlen : 2 ≤ s.length) (hx : ∀ i, i + 1 < s.length → s.rx i < s.rx (i + 1))
include hlen

theorem rinterpolate_prepare (repetition : Bool) (t : K) :
    (s.prepare type repetition).rinterpolate t = (s.prepare type repetition).lookup
      (if repetition then t - ⌊t / (s.rx (s.length - 1) - s.rx 0)⌋ *
        (s.rx (s.length - 1) - s.rx 0) else t) := by
  have hshort : s.length ≠ 0 ∧ s.length ≠ 1 := by omega
  cases repetition <;> simp [rinterpolate, prepare, hshort]

include hx

omit [Field K] [FloorRing K] in
theorem findIndex_eq {t : K} {i : ℕ} (hi : i < s.length) (hlo : s.rx i ≤ t)
    (hhi : i + 1 < s.length → t < s.rx (i + 1)) : s.findIndex t = i := by
  obtain ⟨n, hn⟩ : ∃ n, s.length = n + 1 := ⟨s.length - 1, by omega⟩
  have hfound : upperBound s.rx 0 s.length t = i + 1 := by
    rw [hn] at hx hi hhi ⊢
    exact Spline.upperBound_knots (fun i hi => hx i (by omega)) (by omega) hlo fun h =>
      hhi (by omega)
  simp only [findIndex, hfound]
  exact if_pos ⟨hi, i.succ_pos, hlo⟩

omit [Field K] [FloorRing K] in
theorem findIndex_before {t : K} (ht : t < s.rx 0) : s.findIndex t = 0 := by
  obtain ⟨-, -, hbelow, -⟩ := Spline.upperBound_spec s.rx 0 s.length t fun i j _ hij hj =>
    Spline.knots_le (n := s.length - 1) (fun i hi => hx i (by omega)) hij (by omega)
  refine if_neg fun h => absurd (hbelow 0 le_rfl h.2.1) (not_le.mpr ht)

end Data

/-! ## Pieces -/

/-- A function made of lines, with the first one before the first point, and the last one
after the last point, where it goes through the first value again or is level. -/
structure Pieces (x y σ : ℕ → K) (n : ℕ) (f : K → K) : Prop where
  before : ∀ t < x 0, f t = y 0 + σ 0 * (t - x 0)
  piece : ∀ i < n, ∀ t, x i ≤ t → t < x (i + 1) → f t = y i + σ i * (t - x i)
  after : ∀ t, x n ≤ t → f t = y 0 + σ (n - 1) * (t - x n)
  closes : σ (n - 1) * (y (n - 1) + σ (n - 1) * (x n - x (n - 1)) - y 0) = 0

/-- The lines before and after continue the data that are moved to them. -/
def Continues (x y σ : ℕ → K) (n : ℕ) : Prop :=
  ∀ i < n, (x n - x 0 < x (i + 1) → σ i = σ 0 ∧ y i = y 0 + σ 0 * (x i - x n)) ∧
    (x i < 0 → σ i = σ (n - 1) ∧ y i = y 0 + σ (n - 1) * (x i - x 0))

section Pieces

variable [IsStrictOrderedRing K] {x y σ : ℕ → K} {n : ℕ} {f : K → K}

theorem floor_div_eq {t D : K} {k : ℤ} (hD : 0 < D) :
    ⌊t / D⌋ = k ↔ k * D ≤ t ∧ t < (k + 1) * D := by
  rw [Int.floor_eq_iff, le_div_iff₀ hD, div_lt_iff₀ hD]

omit [FloorRing K] in
/-- Two lines that agree on an interval. -/
theorem line_unique {a b p q u v c d : K} (hab : a < b)
    (h : ∀ t, a ≤ t → t < b → p + u * (t - c) = q + v * (t - d)) :
    v = u ∧ q = p + u * (d - c) := by
  obtain ⟨t, hat, htb⟩ := exists_between hab
  have hslope : v = u := by
    have hdiff : (v - u) * (t - a) = 0 := by linear_combination h a le_rfl hab - h t hat.le htb
    exact sub_eq_zero.mp ((mul_eq_zero.mp hdiff).resolve_right (sub_pos.mpr hat).ne')
  refine ⟨hslope, ?_⟩
  rw [hslope] at h
  linear_combination -h a le_rfl hab

omit [Field K] [FloorRing K] [IsStrictOrderedRing K] in
theorem exists_piece {t : K} (h0 : x 0 ≤ t) (ht : t < x n) : ∃ i < n, x i ≤ t ∧ t < x (i + 1) := by
  induction n with
  | zero => exact absurd ht (not_lt.mpr h0)
  | succ n ih =>
    rcases lt_or_ge t (x n) with hlt | hge
    · obtain ⟨i, hi, hpiece⟩ := ih hlt
      exact ⟨i, by omega, hpiece⟩
    · exact ⟨n, n.lt_succ_self, hge, ht⟩

variable (hf : Pieces x y σ n f) {D : K} (hD : D = x n - x 0)
include hf hD

/-- An argument of the data that is moved by `k` periods is looked up on the first or on
the last line. -/
theorem Pieces.moved {t : K} {k : ℤ} (h0 : x 0 ≤ t) (ht : t < x n) :
    (1 ≤ k → f (t - k * D) = y 0 + σ 0 * (t - (k * D + x 0))) ∧
      (k ≤ -1 → f (t - k * D) = y 0 + σ (n - 1) * (t - (k * D + x n))) := by
  have hpos : 0 < D := hD ▸ sub_pos.mpr (h0.trans_lt ht)
  constructor
  · intro hk
    have hk : (1 : K) ≤ k := by exact_mod_cast hk
    rw [hf.before _ (by nlinarith)]
    ring
  · intro hk
    have hk : (k : K) ≤ -1 := by exact_mod_cast hk
    rw [hf.after _ (by nlinarith)]
    ring

variable (hx : ∀ i < n, x i < x (i + 1)) (hn : 0 < n)
include hx hn

/-- Data that are repeated more than a period away from 0 have a level line there. -/
theorem Pieces.level (hstart : f (x 0 - ⌊x 0 / D⌋ * D) = y 0) :
    (D < x 0 → σ 0 = 0) ∧ (x 0 < -D → σ (n - 1) = 0) := by
  have h0n : x 0 < x n := (hx 0 hn).trans_le (Spline.knots_le hx hn le_rfl)
  have hpos : 0 < D := hD ▸ sub_pos.mpr h0n
  obtain ⟨hk, hk'⟩ := (floor_div_eq hpos).mp (rfl : ⌊x 0 / D⌋ = _)
  generalize ⌊x 0 / D⌋ = k at hk hk' hstart
  constructor
  · intro hlt
    have hk1 : 1 ≤ k := by
      have : (0 : K) < k := by nlinarith
      exact_mod_cast this
    rw [(hf.moved hD le_rfl h0n).1 hk1] at hstart
    have hprod : σ 0 * (k * D) = 0 := by linear_combination -hstart
    refine (mul_eq_zero.mp hprod).resolve_right (mul_ne_zero ?_ hpos.ne')
    exact_mod_cast (by omega : k ≠ 0)
  · intro hlt
    have hk1 : k < -1 := by
      have : (k : K) < (-1 : ℤ) := by
        push_cast
        nlinarith
      exact Int.cast_lt.mp this
    rw [(hf.moved hD le_rfl h0n).2 hk1.le] at hstart
    have hprod : σ (n - 1) * ((k + 1 : ℤ) * D) = 0 := by
      push_cast
      linear_combination -hstart + σ (n - 1) * hD
    refine (mul_eq_zero.mp hprod).resolve_right (mul_ne_zero ?_ hpos.ne')
    exact_mod_cast (by omega : k + 1 ≠ 0)

theorem Pieces.continues (hrepeat : ∀ t, x 0 ≤ t → t < x n → f (t - ⌊t / D⌋ * D) = f t) :
    Continues x y σ n := by
  have h0n : x 0 < x n := (hx 0 hn).trans_le (Spline.knots_le hx hn le_rfl)
  have hpos : 0 < D := hD ▸ sub_pos.mpr h0n
  have hstart := hrepeat (x 0) le_rfl h0n
  rw [hf.piece 0 hn (x 0) le_rfl (hx 0 hn), sub_self, mul_zero, add_zero] at hstart
  obtain ⟨hfirst, hlast⟩ := hf.level hD hx hn hstart
  intro i hi
  have hin : x 0 ≤ x i := Spline.knots_le hx (Nat.zero_le i) hi.le
  have hin' : x (i + 1) ≤ x n := Spline.knots_le hx hi le_rfl
  have hagree : ∀ t (k : ℤ), x i ≤ t → t < x (i + 1) → k * D ≤ t → t < (k + 1) * D →
      f (t - k * D) = y i + σ i * (t - x i) := by
    intro t k hlo hhi hk hk'
    have hmoved := hrepeat t (hin.trans hlo) (hhi.trans_le hin')
    rwa [(floor_div_eq hpos).mpr ⟨hk, hk'⟩, hf.piece i hi t hlo hhi] at hmoved
  constructor
  · intro hlarge
    have hbelow : max (x i) D < x (i + 1) := max_lt (hx i hi) (hD ▸ hlarge)
    obtain ⟨hk, hk'⟩ := (floor_div_eq hpos).mp (rfl : ⌊max (x i) D / D⌋ = _)
    generalize ⌊max (x i) D / D⌋ = k at hk hk'
    have hk1 : 1 ≤ k := by
      have := le_max_right (x i) D
      have : (0 : K) < k := by nlinarith
      exact_mod_cast this
    obtain ⟨hslope, hvalue⟩ := line_unique (q := y i) (v := σ i) (d := x i)
      (lt_min hbelow hk') fun t hlo hhi => by
      rw [← (hf.moved hD (hin.trans ((le_max_left _ _).trans hlo))
        ((lt_min_iff.mp hhi).1.trans_le hin')).1 hk1]
      exact hagree t k ((le_max_left _ _).trans hlo) (lt_min_iff.mp hhi).1 (hk.trans hlo)
        (lt_min_iff.mp hhi).2
    refine ⟨hslope, hvalue.trans ?_⟩
    rcases hk1.eq_or_lt with rfl | hk2
    · push_cast
      linear_combination -σ 0 * hD
    · have : (2 : K) ≤ k := by exact_mod_cast hk2
      rw [hfirst (by nlinarith), zero_mul, zero_mul]
  · intro hneg
    obtain ⟨hk, hk'⟩ := (floor_div_eq hpos).mp (rfl : ⌊x i / D⌋ = _)
    generalize ⌊x i / D⌋ = k at hk hk'
    have hk1 : k ≤ -1 := by
      have : (k : K) < (0 : ℤ) := by
        push_cast
        nlinarith
      have := Int.cast_lt.mp this
      omega
    obtain ⟨hslope, hvalue⟩ := line_unique (q := y i) (v := σ i) (d := x i)
      (lt_min (hx i hi) hk') fun t hlo hhi => by
      rw [← (hf.moved hD (hin.trans hlo) ((lt_min_iff.mp hhi).1.trans_le hin')).2 hk1]
      exact hagree t k hlo (lt_min_iff.mp hhi).1 (hk.trans hlo) (lt_min_iff.mp hhi).2
    refine ⟨hslope, hvalue.trans ?_⟩
    rcases hk1.eq_or_lt with rfl | hk2
    · push_cast
      linear_combination σ (n - 1) * hD
    · have : (k : K) + 1 ≤ -1 := by exact_mod_cast (by omega : k + 1 ≤ -1)
      rw [hlast (by nlinarith), zero_mul, zero_mul]

/-- **The data are repeated iff** the lines before and after continue them. -/
theorem Pieces.repeats_iff :
    (∀ t, x 0 ≤ t → t < x n → f (t - ⌊t / D⌋ * D) = f t) ↔ Continues x y σ n := by
  have hpos : 0 < D := hD ▸ sub_pos.mpr ((hx 0 hn).trans_le (Spline.knots_le hx hn le_rfl))
  refine ⟨hf.continues hD hx hn, fun hcontinue t h0 ht => ?_⟩
  obtain ⟨i, hi, hlo, hhi⟩ := exists_piece h0 ht
  obtain ⟨hk, hk'⟩ := (floor_div_eq hpos).mp (rfl : ⌊t / D⌋ = _)
  generalize ⌊t / D⌋ = k at hk hk' ⊢
  rw [hf.piece i hi t hlo hhi]
  rcases lt_trichotomy k 0 with hneg | rfl | hlarge
  · have hk1 : (k : K) + 1 ≤ 0 := by exact_mod_cast (by omega : k + 1 ≤ 0)
    obtain ⟨hslope, hvalue⟩ := (hcontinue i hi).2 (by nlinarith)
    rw [(hf.moved hD h0 ht).2 (by omega), hslope, hvalue]
    rcases (by omega : k = -1 ∨ k + 1 ≤ -1) with rfl | hk2
    · push_cast
      linear_combination σ (n - 1) * hD
    · have hk2 : (k : K) + 1 ≤ -1 := by exact_mod_cast hk2
      have hlast := hf.closes
      have hle := Spline.knots_le hx (n.sub_le 1) le_rfl
      rw [((hcontinue (n - 1) (by omega)).2 (by nlinarith)).2] at hlast
      have hsq : σ (n - 1) * σ (n - 1) * D = 0 := by
        linear_combination hlast + σ (n - 1) * σ (n - 1) * hD
      have hzero := mul_self_eq_zero.mp ((mul_eq_zero.mp hsq).resolve_right hpos.ne')
      rw [hzero]
      ring
  · rw [Int.cast_zero, zero_mul, sub_zero, hf.piece i hi t hlo hhi]
  · have hk1 : (1 : K) ≤ k := by exact_mod_cast hlarge
    obtain ⟨hslope, hvalue⟩ := (hcontinue i hi).1 (by nlinarith)
    rw [(hf.moved hD h0 ht).1 (by omega), hslope, hvalue]
    rcases (by omega : k = 1 ∨ 2 ≤ k) with rfl | hk2
    · push_cast
      linear_combination -σ 0 * hD
    · have hk2 : (2 : K) ≤ k := by exact_mod_cast hk2
      obtain ⟨-, hfirst⟩ := (hcontinue 0 hn).1 (by nlinarith [hx 0 hn])
      have hprod : σ 0 * D = 0 := by linear_combination hfirst + σ 0 * hD
      rw [(mul_eq_zero.mp hprod).resolve_right hpos.ne']
      ring

end Pieces

/-! ## The data -/

/-- The slope of the data after point `i`. -/
def slope (s : Interpolator K) (type : InterpolType) (i : ℕ) : K :=
  match type with
  | .hold => 0
  | .linear | .cubic => (s.ry (i + 1) - s.ry i) / (s.rx (i + 1) - s.rx i)

section Lookup

variable (hlen : 2 ≤ s.length) (hx : ∀ i, i + 1 < s.length → s.rx i < s.rx (i + 1))
include hx

omit [FloorRing K] in
theorem rlinear_eq {i : ℕ} (hi : i + 1 < s.length) (t : K) : (s.prepare .linear false).rlinear t i =
    s.ry i + s.slope .linear i * (t - s.rx i) := by
  have hne : s.rx (i + 1) - s.rx i ≠ 0 := sub_ne_zero.mpr (hx i hi).ne'
  show linear t (s.rx i) (s.rx (i + 1)) (s.ry i) (s.ry (i + 1)) = _
  rw [linear, if_neg (hx i hi).ne, slope]
  field_simp
  ring

omit [FloorRing K] in
/-- The line that is used when point `i` is found. -/
theorem lookup_eq_line (htype : type ≠ .cubic) {t : K} {i j : ℕ} (hfound : s.findIndex t = i)
    (hj : (if i = s.length - 1 then i - 1 else i) = j) (hline : j + 1 < s.length)
    (hself : t = s.rx i → s.ry i = s.ry j + s.slope .linear j * (t - s.rx j)) :
    (s.prepare type false).lookup t =
      match type with
      | .hold => s.ry i
      | .linear | .cubic => s.ry j + s.slope .linear j * (t - s.rx j) := by
  have hindex : (s.prepare type false).findIndex t = i := hfound
  cases type with
  | linear =>
    show (if t = s.rx _ then s.ry _ else rlinear _ t (if _ = s.length - 1 then _ else _)) = _
    rw [hindex, hj, rlinear_eq hx hline]
    split_ifs with h
    · exact hself h
    · rfl
  | cubic => exact absurd rfl htype
  | hold => exact congrArg s.ry hindex

include hlen

omit [FloorRing K] in
/-- Linear and hold interpolation are made of lines. -/
theorem pieces_lookup (htype : type ≠ .cubic) (hy : s.ry 0 = s.ry (s.length - 1)) :
    Pieces s.rx s.ry (s.slope type) (s.length - 1) (s.prepare type false).lookup := by
  obtain ⟨n, hn⟩ : ∃ n, s.length = n + 2 := ⟨s.length - 2, by omega⟩
  have hend : s.ry (n + 1) = s.ry n + s.slope .linear n * (s.rx (n + 1) - s.rx n) := by
    have hne : s.rx (n + 1) - s.rx n ≠ 0 := sub_ne_zero.mpr (hx n (by omega)).ne'
    rw [slope]
    field_simp
    ring
  have hlevel : ∀ i (t : K), s.slope .hold i * t = 0 := fun i t => zero_mul t
  rw [show s.length - 1 = n + 1 by omega] at hy ⊢
  constructor
  case before =>
    intro t ht
    rw [lookup_eq_line hx htype (findIndex_before hlen hx ht) (if_neg (by omega)) (by omega)
      fun h => absurd h ht.ne]
    cases type with
    | linear => rfl
    | cubic => exact absurd rfl htype
    | hold => rw [hlevel, add_zero]
  case piece =>
    intro i hi t hlo hhi
    rw [lookup_eq_line hx htype (findIndex_eq hlen hx (by omega) hlo fun _ => hhi)
      (if_neg (by omega)) (by omega) fun h => by rw [h, sub_self, mul_zero, add_zero]]
    cases type with
    | linear => rfl
    | cubic => exact absurd rfl htype
    | hold => rw [hlevel, add_zero]
  case after =>
    intro t ht
    rw [lookup_eq_line hx htype (findIndex_eq hlen hx (i := n + 1) (by omega) ht fun h => by omega)
      (if_pos (by omega)) (by omega) fun h => by rw [h]; exact hend, hy]
    cases type with
    | linear =>
      show s.ry n + s.slope .linear n * (t - s.rx n) = _
      rw [hend]
      show _ = _ + s.slope .linear n * _
      ring
    | cubic => exact absurd rfl htype
    | hold => rw [hlevel, add_zero]
  case closes =>
    cases type with
    | linear =>
      show s.slope .linear n * (s.ry n + s.slope .linear n * (s.rx (n + 1) - s.rx n) - s.ry 0) = 0
      rw [← hend, hy, sub_self, mul_zero]
    | cubic => exact absurd rfl htype
    | hold => exact hlevel _ _

end Lookup

variable [IsStrictOrderedRing K]

/-- The data that are moved by the reduction of the argument lie on the lines they are
moved to. -/
def Repeats (s : Interpolator K) (type : InterpolType) : Prop :=
  Continues s.rx s.ry (s.slope type) (s.length - 1)

/-- **Cyclic interpolation is the periodic extension of the data iff they are moved to
lines that continue them**: linear and hold interpolation have the period of the data,
agree with the ones without repetition on the data, and go through all points. -/
theorem cyclic_interpolation_iff (hlen : 2 ≤ s.length)
    (hx : ∀ i, i + 1 < s.length → s.rx i < s.rx (i + 1)) (hy : s.ry 0 = s.ry (s.length - 1))
    (htype : type ≠ .cubic) :
    ((∀ t, (s.prepare type true).rinterpolate (t + (s.rx (s.length - 1) - s.rx 0)) =
      (s.prepare type true).rinterpolate t) ∧
    (∀ t, s.rx 0 ≤ t → t < s.rx (s.length - 1) →
      (s.prepare type true).rinterpolate t = (s.prepare type false).rinterpolate t) ∧
    ∀ i < s.length, (s.prepare type true).rinterpolate (s.rx i) = s.ry i) ↔ s.Repeats type := by
  have hpieces := pieces_lookup hlen hx htype hy
  have hiff := hpieces.repeats_iff rfl (fun i hi => hx i (by omega)) (by omega)
  obtain ⟨D, hD⟩ : ∃ D, s.rx (s.length - 1) - s.rx 0 = D := ⟨_, rfl⟩
  have hpos : 0 < D := by
    rw [← hD, sub_pos]
    exact (hx 0 (by omega)).trans_le
      (Spline.knots_le (fun j hj => hx j (by omega)) (by omega) le_rfl)
  rw [hD] at hiff
  simp only [rinterpolate_prepare hlen, lookup_prepare hy, hD, if_true]
  have hperiod : ∀ t, t + D - ⌊(t + D) / D⌋ * D = t - ⌊t / D⌋ * D := by
    intro t
    rw [add_div, div_self hpos.ne', Int.floor_add_one]
    push_cast
    ring
  rw [Repeats, ← hiff]
  refine ⟨fun h => h.2.1, fun h => ⟨fun t => by rw [hperiod], h, fun i hi => ?_⟩⟩
  have hpoint : ∀ j < s.length - 1, (s.prepare type false).lookup (s.rx j) = s.ry j := by
    intro j hj
    rw [hpieces.piece j hj _ le_rfl (hx j (by omega)), sub_self, mul_zero, add_zero]
  have hdata : ∀ j < s.length - 1,
      (s.prepare type false).lookup (s.rx j - ⌊s.rx j / D⌋ * D) = s.ry j := by
    intro j hj
    have hknots : ∀ {i k}, i ≤ k → k ≤ s.length - 1 → s.rx i ≤ s.rx k := fun hik hk =>
      Spline.knots_le (fun j hj => hx j (by omega)) hik hk
    exact (h _ (hknots (Nat.zero_le j) hj.le)
      ((hx j (by omega)).trans_le (hknots hj le_rfl))).trans (hpoint j hj)
  rcases Nat.lt_or_ge i (s.length - 1) with hlt | hge
  · exact hdata i hlt
  · obtain rfl : i = s.length - 1 := by omega
    have hlast : s.rx (s.length - 1) = s.rx 0 + D := by rw [← hD]; ring
    rw [hlast, hperiod, hdata 0 (by omega), hy]

/-- A peak between level data, from 1 on: what is moved is level. -/
def peak : Interpolator ℚ where
  length := 5
  rx i := [1, 6 / 5, 3 / 2, 2, 3].getD i 0
  ry i := [0, 0, 1, 0, 0].getD i 0
  interpolType := .linear
  repetition := false
  duration := 0
  rsp := 0

theorem cyclic_interpolation_peak :
    peak.Repeats .linear ∧ (peak.prepare .linear true).rinterpolate (7 / 2) = 1 := by
  have hx : ∀ i < 4, peak.rx i < peak.rx (i + 1) := by decide +kernel
  have hrepeats : peak.Repeats .linear := by
    unfold Repeats Continues
    decide +kernel
  obtain ⟨hperiod, -, hpoint⟩ := (cyclic_interpolation_iff (s := peak) (by decide)
    (fun i hi => hx i (Nat.succ_lt_succ_iff.mp hi)) rfl (by decide)).mpr hrepeats
  have htwo : peak.rx (peak.length - 1) - peak.rx 0 = 2 := by decide +kernel
  rw [htwo] at hperiod
  refine ⟨hrepeats, ?_⟩
  rw [show (7 / 2 : ℚ) = peak.rx 2 + 2 by decide +kernel, hperiod, hpoint 2 (by decide)]
  rfl

/-- A triangle, from 1 on. -/
def triangle : Interpolator ℚ where
  length := 3
  rx i := 1 + i
  ry i := if i = 1 then 1 else 0
  interpolType := .linear
  repetition := false
  duration := 0
  rsp := 0

/-- The argument 2 is reduced to 0, where the first line has the value -1. -/
theorem rinterpolate_triangle :
    triangle.ry 1 = 1 ∧ triangle.rx 1 = 2 ∧
      (triangle.prepare .linear true).rinterpolate 2 = -1 := by
  decide +kernel

end Interpolator

end Qucs.Interpolation
