/-
# The transform to the frequency domain and its axis

`fourier.cpp`, `evaluate.cpp`. The values are exact. `time2freq` transforms the
samples and generates the axis of the frequencies, from 0 to the sampling rate. The
transform of n points has its frequencies a step of 1/n of that rate apart; the axis
has n points with both ends and steps of 1/(n - 1). So a tone at a frequency of the
axis other than 0 has no zero in its transform at all (`entry_eq_zero_iff`).
-/
import Qucs.Lib.Numerals

namespace Qucs.Fourier

open Complex Finset Real

structure Vector (K : Type) where
  size : ℕ
  get : ℕ → K

/-- `std::polar` -/
noncomputable def polar (rho theta : ℝ) : ℂ := rho * exp (theta * I)

/-- The discrete transform `fourier::dft_1d`. -/
noncomputable def dft1d (var : Vector ℂ) (isign : ℤ) : Vector ℂ where
  size := var.size
  get n :=
    let th : ℝ := -isign * 2 * π * n / var.size
    let val := ∑ k ∈ range var.size, var.get k * polar 1 (th * k)
    if isign < 0 then val / var.size else val

/-- Rounding errors of zero are set to zero. -/
noncomputable def linspace (start stop : ℝ) (points : ℕ) : Vector ℝ where
  size := points
  get i :=
    let step := (stop - start) / (points - 1)
    let val := start + i * step
    if i ≠ 0 ∧ |val| < |step| / 4 ∧ |val| < 2⁻¹ ^ 52 then 0 else val

/-- The result and the vector of the generated equation. -/
noncomputable def fourierHelper1 (isign : ℤ) (v t : Vector ℂ) :
    Except String (Vector ℂ × Vector ℝ) :=
  let val := dft1d v isign
  let k := val.size
  let n := t.size
  if k ≠ n then .error "nonconformant vector lengths"
  else
    let last := (t.get (n - 1)).re
    let first := (t.get 0).re
    let delta := (last - first) / (n - 1)
    .ok (⟨k, fun i => if isign > 0 then val.get i / k else val.get i * k⟩, linspace 0 (1 / delta) n)

/-- Spectrum and frequencies, `evaluate::time2freq_v_v`. -/
noncomputable def time2freq : Vector ℂ → Vector ℂ → Except String (Vector ℂ × Vector ℝ) :=
  fourierHelper1 1

/-! ## Uniform times and tones -/

noncomputable def uniform (t₀ delta : ℝ) (n : ℕ) : Vector ℂ := ⟨n, fun j => (t₀ + j * delta : ℝ)⟩

/-- The complex exponential after that many periods. -/
noncomputable def turn (x : ℝ) : ℂ := exp (x * (2 * π * I))

/-- The complex exponential of a frequency, sampled. -/
noncomputable def tone (f : ℝ) (t : Vector ℂ) : Vector ℂ :=
  ⟨t.size, fun j => turn (f * (t.get j).re)⟩

theorem turn_ne_zero (x : ℝ) : turn x ≠ 0 := Complex.exp_ne_zero _

theorem turn_add (x y : ℝ) : turn (x + y) = turn x * turn y := by
  rw [turn, turn, turn, ← Complex.exp_add, ofReal_add, add_mul]

theorem turn_pow (x : ℝ) (n : ℕ) : turn x ^ n = turn (n * x) := by
  rw [turn, turn, ← Complex.exp_nat_mul, ofReal_mul, ofReal_natCast, ← mul_assoc (n : ℂ)]

theorem turn_eq_one_iff {x : ℝ} : turn x = 1 ↔ ∃ N : ℤ, x = N := by
  rw [turn, Complex.exp_eq_one_iff]
  refine exists_congr fun N => ?_
  rw [mul_left_inj' two_pi_I_ne_zero]
  norm_cast

theorem geom_sum_eq_zero_iff {z : ℂ} {n : ℕ} (hn : n ≠ 0) :
    ∑ j ∈ range n, z ^ j = 0 ↔ z ≠ 1 ∧ z ^ n = 1 := by
  rcases eq_or_ne z 1 with rfl | hz
  · simpa using hn
  · rw [geom_sum_eq hz, div_eq_zero_iff, or_iff_left (sub_ne_zero.mpr hz), sub_eq_zero]
    exact (and_iff_right hz).symm

variable {n k m : ℕ} {t₀ delta : ℝ}

/-- No value of an axis from 0 is a rounding error. -/
theorem linspace_zero (stop : ℝ) (n i : ℕ) :
    (linspace 0 stop n).get i = i * (stop / (n - 1)) := by
  rw [linspace]
  dsimp only
  rw [sub_zero, zero_add, if_neg]
  rintro ⟨hi, hstep, -⟩
  have hle : |stop / (n - 1)| ≤ |i * (stop / (n - 1))| := by
    rw [abs_mul, Nat.abs_cast]
    exact le_mul_of_one_le_left (abs_nonneg _) (Nat.one_le_cast.mpr (Nat.one_le_iff_ne_zero.mpr hi))
  linarith [abs_nonneg (stop / (n - 1))]

theorem time2freq_tone (hn : 2 ≤ n) (f : ℝ) :
    time2freq (tone f (uniform t₀ delta n)) (uniform t₀ delta n) =
      .ok (⟨n, fun m => (dft1d (tone f (uniform t₀ delta n)) 1).get m / n⟩,
        linspace 0 (1 / delta) n) := by
  have hn' : (n : ℝ) - 1 ≠ 0 := sub_ne_zero.mpr (Nat.cast_ne_one.mpr (by omega))
  have hdelta : (t₀ + (n - 1 : ℕ) * delta - (t₀ + (0 : ℕ) * delta)) / (n - 1) = delta := by
    rw [Nat.cast_pred (by omega), Nat.cast_zero, zero_mul, add_zero, add_sub_cancel_left,
      mul_div_cancel_left₀ _ hn']
  refine (if_neg (not_not.mpr rfl)).trans ?_
  dsimp only [uniform]
  rw [ofReal_re, ofReal_re, hdelta]
  rfl

theorem dft1d_tone (f : ℝ) : (dft1d (tone f (uniform t₀ delta n)) 1).get m =
    turn (f * t₀) * ∑ j ∈ range n, turn (f * delta - m / n) ^ j := by
  rw [mul_sum]
  change ∑ j ∈ range n, _ = _
  refine sum_congr rfl fun j _ => ?_
  rw [turn_pow, ← turn_add]
  dsimp only [tone, uniform, turn, polar]
  rw [ofReal_re, ofReal_one, one_mul, ← Complex.exp_add]
  push_cast
  ring_nf

/-- **The transform of a tone of the axis.**  The ratio of the sum has the n-th power
`turn (n * k / (n - 1))`, and n - 1 divides n k only if it divides k. -/
theorem entry_eq_zero_iff (hdelta : delta ≠ 0) (hk : 2 * k < n) (hm : m < n) :
    (dft1d (tone (k * (1 / delta / (n - 1))) (uniform t₀ delta n)) 1).get m = 0 ↔
      k = 0 ∧ m ≠ 0 := by
  have hn : n ≠ 0 := by omega
  have hn' : (n : ℝ) ≠ 0 := Nat.cast_ne_zero.mpr hn
  have hx : k * (1 / delta / (n - 1)) * delta - m / n = (k : ℝ) / (n - 1) - m / n := by
    rw [div_div, mul_one_div, div_mul_eq_mul_div, mul_comm _ delta, mul_div_mul_left _ _ hdelta]
  rw [dft1d_tone, mul_eq_zero, or_iff_right (turn_ne_zero _), geom_sum_eq_zero_iff hn,
    turn_pow, Ne, turn_eq_one_iff, turn_eq_one_iff, hx]
  rcases eq_or_ne k 0 with rfl | hk0
  · rw [Nat.cast_zero, zero_div, zero_sub]
    constructor
    · rintro ⟨hturn, -⟩
      exact ⟨rfl, fun hm0 => hturn ⟨0, by simp [hm0]⟩⟩
    · rintro ⟨-, hm0⟩
      refine ⟨?_, -m, ?_⟩
      · rintro ⟨N, hN⟩
        have hdvd : (n : ℤ) ∣ m := by
          refine ⟨-N, ?_⟩
          rw [neg_eq_iff_eq_neg, div_eq_iff hn'] at hN
          rw [mul_comm]
          exact_mod_cast hN
        exact absurd (Nat.le_of_dvd (by omega) (Int.natCast_dvd_natCast.mp hdvd)) (by omega)
      · rw [mul_neg, mul_div_cancel₀ _ hn']
        norm_cast
  · refine iff_of_false ?_ fun h => hk0 h.1
    rintro ⟨-, N, hN⟩
    have hn1 : (n : ℝ) - 1 ≠ 0 := sub_ne_zero.mpr (Nat.cast_ne_one.mpr (by omega))
    have heq : (k : ℤ) = (N + m - k) * (n - 1) := by
      field_simp at hN
      have : (k : ℝ) = (N + m - k) * (n - 1) := by linarith
      exact_mod_cast this
    have hdvd : n - 1 ∣ k := by
      rw [← Int.natCast_dvd_natCast, Nat.cast_pred (by omega)]
      exact Dvd.intro_left _ heq.symm
    exact absurd (Nat.le_of_dvd (by omega) hdvd) (by omega)

/-- A tone at the frequency that the axis has at k is mapped to a vector with its only
nonzero entry there. -/
def Resolves (n : ℕ) (t₀ delta : ℝ) (k : ℕ) : Prop :=
  ∃ freq out, time2freq (tone (freq.get k) (uniform t₀ delta n)) (uniform t₀ delta n) =
    .ok (out, freq) ∧ ∀ m < n, out.get m ≠ 0 ↔ m = k

theorem resolves_iff (hn : 2 ≤ n) (hdelta : delta ≠ 0) (hk : 2 * k < n) :
    Resolves n t₀ delta k ↔ ∀ m < n, (k = 0 → m = 0) ↔ m = k := by
  have hentry : ∀ m < n, (dft1d (tone ((linspace 0 (1 / delta) n).get k) (uniform t₀ delta n))
      1).get m / n ≠ 0 ↔ (k = 0 → m = 0) := by
    intro m hm
    rw [Ne, div_eq_zero_iff, or_iff_left (Nat.cast_ne_zero.mpr (by omega)), linspace_zero,
      entry_eq_zero_iff hdelta hk hm, not_and_not_right]
  constructor
  · rintro ⟨freq, out, hrun, honly⟩ m hm
    cases (time2freq_tone hn _).symm.trans hrun
    exact (hentry m hm).symm.trans (honly m hm)
  · exact fun honly => ⟨_, _, time2freq_tone hn _, fun m hm => (hentry m hm).trans (honly m hm)⟩

/-- **The axis of the frequencies** fits the transform exactly at 0. -/
theorem time2freq_axis (hn : 2 ≤ n) (t₀ : ℝ) (hdelta : delta ≠ 0) (hk : 2 * k < n) :
    Resolves n t₀ delta k ↔ k = 0 := by
  rw [resolves_iff hn hdelta hk]
  constructor
  · exact fun honly => ((honly 0 (by omega)).mp fun _ => rfl).symm
  · rintro rfl m -
    exact ⟨fun h => h rfl, fun h _ => h⟩

theorem time2freq_axis_four : Resolves 4 0 1 0 :=
  (time2freq_axis (by decide) 0 one_ne_zero (by decide)).mpr rfl

/-- Four samples of the second frequency of their axis. -/
theorem time2freq_spread : ¬Resolves 4 0 1 1 := by
  rw [resolves_iff (by decide) one_ne_zero (by decide)]
  exact fun honly => absurd ((honly 0 (by decide)).mp fun _ => rfl) (by decide)

end Qucs.Fourier
