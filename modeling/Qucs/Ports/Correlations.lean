/-
# Noise correlation matrices

`math/matrix.cpp`. The noise of a network is described by the
correlation matrix of the waves, voltages or currents it adds at its ports. The
conversions between them take the network as a scattering, admittance or impedance
matrix, normalised to one impedance.

Each of them is a congruence. For matrices of one network (`Normalised`)

    (1 + s) (1 + y) = 2     (1 - s) (1 + z) = 2     y z = 1     (1 + s) y = 1 - s

and the conversions take each other back (`correlations_consistent`).
-/
import Qucs.Ports.Conversions

namespace Qucs.Ports

open Linear Lib.Frames Matrix

variable {d : ℕ}

/-! ## The functions -/

section Functions

variable {K : Type*} [Field K] [StarRing K]

/-- From Y- to S-parameters. -/
def cytocs (cy s : Matrix (Fin d) (Fin d) K) : Matrix (Fin d) (Fin d) K :=
  ((1 + s) * cy * (1 + s)ᴴ).map (· / 4)

/-- From S- to Y-parameters. -/
def cstocy (cs y : Matrix (Fin d) (Fin d) K) : Matrix (Fin d) (Fin d) K :=
  (1 + y) * cs * (1 + y)ᴴ

/-- From Z- to S-parameters. -/
def cztocs (cz s : Matrix (Fin d) (Fin d) K) : Matrix (Fin d) (Fin d) K :=
  ((1 - s) * cz * (1 - s)ᴴ).map (· / 4)

/-- From S- to Z-parameters. -/
def cstocz (cs z : Matrix (Fin d) (Fin d) K) : Matrix (Fin d) (Fin d) K :=
  (1 + z) * cs * (1 + z)ᴴ

/-- From Z- to Y-parameters. -/
def cztocy (cz y : Matrix (Fin d) (Fin d) K) : Matrix (Fin d) (Fin d) K := y * cz * yᴴ

/-- From Y- to Z-parameters. -/
def cytocz (cy z : Matrix (Fin d) (Fin d) K) : Matrix (Fin d) (Fin d) K := z * cy * zᴴ

end Functions

/-! ## One network -/

section Equations

variable {K V : Type*} [Field K] [Field V] [LinearOrder V] {m : Numbers K V}
  [NeZero (2 : K)] {z0 : Fin d → K} {s y z : Matrix (Fin d) (Fin d) K}

theorem stoy_equation (h : Admissible m z0) (hy : stoy m s z0 = some y) :
    (1 - s) * diagonal (m.gref z0) =
      (s * diagonal z0 + diagonal z0) * diagonal (m.gref z0) * y := by
  rw [stoy_eq_some_iff h] at hy
  refine ext_of_mulVec_single fun k => ?_
  have hx : ((Pi.single k 1, y *ᵥ Pi.single k 1) : Quantities d K) ∈ (waves h).graph s := by
    rw [hy, mem_admittance]
  rw [mem_waves] at hx
  simpa only [← mulVec_mulVec] using hx

theorem stoz_equation (h : Admissible m z0) (hz : stoz m s z0 = some z) :
    (1 - s) * diagonal (m.gref z0) * z =
      (s * diagonal z0 + diagonal z0) * diagonal (m.gref z0) := by
  rw [stoz_eq_some_iff h] at hz
  refine ext_of_mulVec_single fun k => ?_
  have hx : ((z *ᵥ Pi.single k 1, Pi.single k 1) : Quantities d K) ∈ (waves h).graph s := by
    rw [hz, mem_impedance]
  rw [mem_waves] at hx
  simpa only [← mulVec_mulVec] using hx

end Equations

/-- The matrices describe one network, normalised to the impedance `r`. -/
structure Normalised (r : ℝ) (s y z : Matrix (Fin d) (Fin d) ℂ) : Prop where
  positive : 0 < r
  admittance : stoy complexes s (fun _ => r) = some ((r : ℂ)⁻¹ • y)
  impedance : stoz complexes s (fun _ => r) = some ((r : ℂ) • z)

namespace Normalised

variable {r : ℝ} {s y z : Matrix (Fin d) (Fin d) ℂ}

theorem admissible (h : Normalised r s y z) : Admissible complexes (fun _ => (r : ℂ) : Fin d → ℂ) :=
  Positive.admissible fun _ => ⟨r, h.positive, rfl⟩

variable (h : Normalised r s y z)
include h

/-- With one impedance for all ports the square root is a number. -/
theorem exists_root : ∃ c : ℂ, c ≠ 0 ∧
    diagonal (complexes.gref fun _ => (r : ℂ)) = c • (1 : Matrix (Fin d) (Fin d) ℂ) := by
  obtain hd | hd := isEmpty_or_nonempty (Fin d)
  · exact ⟨1, one_ne_zero, Subsingleton.elim _ _⟩
  · refine ⟨_, h.admissible.root hd.some, ?_⟩
    rw [smul_one_eq_diagonal]
    rfl

theorem equations : (1 + s) * y = 1 - s ∧ (1 - s) * z = 1 + s := by
  obtain ⟨c, hc, hroot⟩ := h.exists_root
  have hr : (r : ℂ) ≠ 0 := by exact_mod_cast h.positive.ne'
  have hy := stoy_equation h.admissible h.admittance
  have hz := stoz_equation h.admissible h.impedance
  rw [hroot, ← smul_one_eq_diagonal] at hy hz
  simp only [mul_smul_comm, smul_mul_assoc, mul_one, smul_smul, ← smul_add] at hy hz
  rw [mul_comm c, inv_mul_cancel_left₀ hr, add_comm] at hy
  rw [mul_comm c, add_comm s] at hz
  exact ⟨(smul_right_injective _ hc hy).symm, smul_right_injective _ (mul_ne_zero hr hc) hz⟩

theorem add_mul_add : (1 + s) * (1 + y) = (2 : ℂ) • 1 := by
  rw [mul_add, mul_one, h.equations.1, add_add_sub_cancel, two_smul]

theorem sub_mul_add : (1 - s) * (1 + z) = (2 : ℂ) • 1 := by
  rw [mul_add, mul_one, h.equations.2, sub_add_add_cancel, two_smul]

end Normalised

/-! ## Congruences -/

section Congruence

variable {K : Type*} [Field K] {p q c : Matrix (Fin d) (Fin d) K}

theorem congruence_mul [StarRing K] : p * (q * c * qᴴ) * pᴴ = p * q * c * (p * q)ᴴ := by
  rw [conjTranspose_mul]
  simp only [mul_assoc]

theorem congruence_of_one [StarRing K] (h : p * q = 1) : p * (q * c * qᴴ) * pᴴ = c := by
  rw [congruence_mul, h, conjTranspose_one, one_mul, mul_one]

theorem congruence_of_two [StarRing K] (h : p * q = (2 : K) • 1) :
    p * (q * c * qᴴ) * pᴴ = (4 : K) • c := by
  rw [congruence_mul, h, conjTranspose_smul, conjTranspose_one, star_ofNat, smul_mul_assoc,
    one_mul, mul_smul_comm, mul_one, smul_smul]
  norm_num

theorem map_div_four (c : Matrix (Fin d) (Fin d) K) : c.map (· / 4) = (4 : K)⁻¹ • c := by
  ext i j
  rw [map_apply, Matrix.smul_apply, smul_eq_mul, div_eq_inv_mul]

variable [CharZero K]

theorem mul_eq_two_comm (h : p * q = (2 : K) • 1) : q * p = (2 : K) • 1 := by
  have hhalf : ((2 : K)⁻¹ • p) * q = 1 := by
    rw [smul_mul_assoc, h, smul_smul, inv_mul_cancel₀ two_ne_zero, one_smul]
  rw [← mul_eq_one_comm.mp hhalf, mul_smul_comm, smul_smul, mul_inv_cancel₀ two_ne_zero, one_smul]

theorem quarter_smul (c : Matrix (Fin d) (Fin d) K) : (4 : K)⁻¹ • (4 : K) • c = c := by
  rw [smul_smul, inv_mul_cancel₀ (by norm_num), one_smul]

variable [StarRing K]

theorem congruence_map (h : p * q = (2 : K) • 1) : p * (q * c * qᴴ).map (· / 4) * pᴴ = c := by
  rw [map_div_four, mul_smul_comm, smul_mul_assoc, congruence_of_two h, quarter_smul]

theorem map_congruence (h : p * q = (2 : K) • 1) : (p * (q * c * qᴴ) * pᴴ).map (· / 4) = c := by
  rw [map_div_four, congruence_of_two h, quarter_smul]

end Congruence

theorem Normalised.admittance_mul_impedance {r : ℝ} {s y z : Matrix (Fin d) (Fin d) ℂ}
    (h : Normalised r s y z) : y * z = 1 := by
  have hsum : (1 + s) * (y * z) = 1 + s := by rw [← mul_assoc, h.equations.1, h.equations.2]
  have htwo := congrArg ((1 + y) * ·) hsum
  simp only [← mul_assoc, mul_eq_two_comm h.add_mul_add, smul_mul_assoc, one_mul] at htwo
  exact smul_right_injective _ (two_ne_zero) htwo

/-- **The correlations are consistent** for the matrices of one network: all conversions
take each other back, and the way over `cy` leads from `cz` to the same `cs`. -/
theorem correlations_consistent {r : ℝ} {s y z : Matrix (Fin d) (Fin d) ℂ}
    (h : Normalised r s y z) (c : Matrix (Fin d) (Fin d) ℂ) :
    cstocy (cytocs c s) y = c ∧ cytocs (cstocy c y) s = c ∧
    cstocz (cztocs c s) z = c ∧ cztocs (cstocz c z) s = c ∧
    cytocz (cztocy c y) z = c ∧ cztocy (cytocz c z) y = c ∧
    cytocs (cztocy c y) s = cztocs c s := by
  refine ⟨congruence_map (mul_eq_two_comm h.add_mul_add), map_congruence h.add_mul_add,
    congruence_map (mul_eq_two_comm h.sub_mul_add), map_congruence h.sub_mul_add,
    congruence_of_one (mul_eq_one_comm.mp h.admittance_mul_impedance),
    congruence_of_one h.admittance_mul_impedance, ?_⟩
  rw [cytocs, cztocy, cztocs, congruence_mul, h.equations.1]

/-- The admittances of the attenuator, times the impedance of the ports. -/
noncomputable def attenuatorY : Matrix (Fin 2) (Fin 2) ℂ := attenuatorZ⁻¹

theorem correlations_consistent_attenuator :
    Normalised 50 attenuator attenuatorY attenuatorZ ∧
      cytocs (cztocy !![2, Complex.I; -Complex.I, 3] attenuatorY) attenuator =
        cztocs !![2, Complex.I; -Complex.I, 3] attenuator := by
  have hpos : Positive (fun _ => ((50 : ℝ) : ℂ) : Fin 2 → ℂ) := fun _ => ⟨50, by norm_num, rfl⟩
  have hinv : attenuatorY * attenuatorZ = 1 := by
    have hdet : attenuatorZ.det = 1 := by norm_num [attenuatorZ, det_fin_two_of]
    exact nonsing_inv_mul _ (hdet ▸ isUnit_one)
  have hz := stoz_uniform hpos.admissible attenuator_mul
  have hy : stoy complexes attenuator (fun _ => ((50 : ℝ) : ℂ)) =
      some (((50 : ℝ) : ℂ)⁻¹ • attenuatorY) := by
    rw [stoy_eq_some_iff hpos.admissible, (stoz_eq_some_iff hpos.admissible).mp hz,
      ← ztoy_eq_some_iff (m := complexes), ztoy, Numbers.inverse_eq_some_iff, smul_mul_smul_comm,
      hinv, inv_mul_cancel₀ (by norm_num), one_smul]
  have h : Normalised 50 attenuator attenuatorY attenuatorZ := ⟨by norm_num, hy, hz⟩
  exact ⟨h, (correlations_consistent h _).2.2.2.2.2.2⟩

end Qucs.Ports
