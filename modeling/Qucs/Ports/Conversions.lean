/-
# Scattering, impedance and admittance matrices

`math/matrix.cpp`. A network with `d` ports has voltages `v` and
currents `i`. It is described by an impedance or an admittance matrix, or, with a
reference impedance for each port, by a scattering matrix.

Each matrix describes its network in a frame of its own:

    matrix        inputs              outputs
    impedance     i                   v                   `impedance`
    admittance    v                   i                   `admittance`
    scattering    gref (v + zref i)   gref (v - zref i)   `waves`

A conversion returns a matrix iff that describes the same network
(`stoz_eq_some_iff` and others). **All identities between them follow from this**
(`conversions_consistent`).
-/
import Qucs.Lib.Frames
import Qucs.Linear.GaussJordan

namespace Qucs.Ports

open Linear Lib.Frames Matrix Option Frame

/-- What the conversions need of numbers. -/
structure Numbers (K V : Type*) [Field K] [Field V] [LinearOrder V] extends Magnitude K V where
  sqrt : K → K
  real : K → K
  conj : K → K
  fabs : K → K

variable {K V : Type*} [Field K] [Field V] [LinearOrder V] (m : Numbers K V) {d : ℕ}

/-! ## The functions -/

/-- The inverse, which may fail its assertion. -/
def Numbers.inverse : Matrix (Fin d) (Fin d) K → Option (Matrix (Fin d) (Fin d) K) :=
  Linear.inverse m.toMagnitude

/-- `sqrt (real (1 / z0))`. -/
def Numbers.gref (z0 : Fin d → K) (i : Fin d) : K := m.sqrt (m.real (1 / z0 i))

/-- `a` in `stos`. -/
def Numbers.scaling (zref z0 : Fin d → K) (i : Fin d) : K :=
  m.sqrt (z0 i / zref i) * 2 * zref i / (z0 i + zref i)

def reflection (zref z0 : Fin d → K) (i : Fin d) : K := (z0 i - zref i) / (z0 i + zref i)

variable (s : Matrix (Fin d) (Fin d) K)

/-- To other impedances. -/
def stos (zref z0 : Fin d → K) :
    Option (Matrix (Fin d) (Fin d) K) := do
  let r := diagonal (reflection zref z0)
  let a := m.scaling zref z0
  let e ← m.inverse (1 - r * s)
  return diagonal (fun i => 1 / a i) * (s - r) * e * diagonal a

/-- From S- to Z-parameters. -/
def stoz (z0 : Fin d → K) : Option (Matrix (Fin d) (Fin d) K) := do
  let zref := diagonal z0
  let gref := diagonal (m.gref z0)
  let g ← m.inverse gref
  let e ← m.inverse (1 - s)
  return g * e * (s * zref + zref) * gref

/-- From Z- to S-parameters. -/
def ztos (z : Matrix (Fin d) (Fin d) K) (z0 : Fin d → K) : Option (Matrix (Fin d) (Fin d) K) := do
  let zref := diagonal z0
  let gref := diagonal (m.gref z0)
  let e ← m.inverse (z + zref)
  let g ← m.inverse gref
  return gref * (z - zref) * e * g

/-- From S- to Y-parameters. -/
def stoy (z0 : Fin d → K) : Option (Matrix (Fin d) (Fin d) K) := do
  let zref := diagonal z0
  let gref := diagonal (m.gref z0)
  let g ← m.inverse gref
  let e ← m.inverse (s * zref + zref)
  return g * e * (1 - s) * gref

/-- From Y- to S-parameters. -/
def ytos (y : Matrix (Fin d) (Fin d) K) (z0 : Fin d → K) : Option (Matrix (Fin d) (Fin d) K) := do
  let zref := diagonal z0
  let gref := diagonal (m.gref z0)
  let e ← m.inverse (1 + zref * y)
  let g ← m.inverse gref
  return gref * (1 - zref * y) * e * g

/-- From Z- to Y-parameters. -/
def ztoy (z : Matrix (Fin d) (Fin d) K) : Option (Matrix (Fin d) (Fin d) K) := m.inverse z

/-! ## Networks -/

section Frames

/-- The voltages and the currents of the ports. -/
abbrev Quantities (d : ℕ) (K : Type*) := (Fin d → K) × (Fin d → K)

/-- Outputs from inputs `i` to `v`. -/
def impedance (d : ℕ) (K : Type*) [Field K] : Frame K (Fin d) (Quantities d K) where
  input := LinearMap.snd K _ _
  output := LinearMap.fst K _ _
  point a b := ⟨(b, a), rfl, rfl⟩
  zero _ hi hv := Prod.ext hv hi

/-- Voltages give currents. -/
def admittance (d : ℕ) (K : Type*) [Field K] : Frame K (Fin d) (Quantities d K) where
  input := LinearMap.fst K _ _
  output := LinearMap.snd K _ _
  point a b := ⟨(a, b), rfl, rfl⟩
  zero _ hv hi := Prod.ext hv hi

variable (z0 : Fin d → K)

structure Admissible : Prop where
  impedance : ∀ i, z0 i ≠ 0
  root : ∀ i, m.gref z0 i ≠ 0

/-- `gref (v + zref i)` and, with the other sign, `gref (v - zref i)`. -/
def wave (sign : K) : Quantities d K →ₗ[K] Fin d → K where
  toFun x k := m.gref z0 k * (x.1 k + sign * (z0 k * x.2 k))
  map_add' x y := by
    funext k
    simp only [Prod.fst_add, Prod.snd_add, Pi.add_apply]
    ring
  map_smul' c x := by
    funext k
    simp only [Prod.smul_fst, Prod.smul_snd, Pi.smul_apply, smul_eq_mul, RingHom.id_apply]
    ring

variable {m z0}

theorem wave_eq (sign : K) (x : Quantities d K) : wave m z0 sign x =
    diagonal (m.gref z0) *ᵥ (x.1 + sign • diagonal z0 *ᵥ x.2) := by
  funext k
  simp [wave, mulVec_diagonal]

variable {x : Quantities d K}

theorem mem_impedance {z : Matrix (Fin d) (Fin d) K} :
    x ∈ (impedance d K).graph z ↔ x.1 = z *ᵥ x.2 := Iff.rfl

theorem mem_admittance {y : Matrix (Fin d) (Fin d) K} :
    x ∈ (admittance d K).graph y ↔ x.2 = y *ᵥ x.1 := Iff.rfl

variable [NeZero (2 : K)] (h : Admissible m z0)

/-- Incident waves give reflected ones. -/
def waves : Frame K (Fin d) (Quantities d K) where
  input := wave m z0 1
  output := wave m z0 (-1)
  point a b := by
    refine ⟨(fun k => (a k + b k) / (2 * m.gref z0 k),
      fun k => (a k - b k) / (2 * m.gref z0 k * z0 k)), ?_, ?_⟩
    all_goals
      funext k
      have hz := h.impedance k
      have hg := h.root k
      simp only [wave, LinearMap.coe_mk, AddHom.coe_mk]
      field_simp
      ring
  zero x hin hout := by
    have hboth : ∀ k, x.1 k = 0 ∧ x.2 k = 0 := by
      intro k
      have hg := h.root k
      have hin' := (mul_eq_zero.mp (congrFun hin k)).resolve_left hg
      have hout' := (mul_eq_zero.mp (congrFun hout k)).resolve_left hg
      have hv : 2 * x.1 k = 0 := by linear_combination hin' + hout'
      have hi : 2 * (z0 k * x.2 k) = 0 := by linear_combination hin' - hout'
      have htwo : (2 : K) ≠ 0 := NeZero.ne 2
      exact ⟨(mul_eq_zero.mp hv).resolve_left htwo, (mul_eq_zero.mp ((mul_eq_zero.mp
        hi).resolve_left htwo)).resolve_left (h.impedance k)⟩
    exact Prod.ext (funext fun k => (hboth k).1) (funext fun k => (hboth k).2)

@[simp]
theorem waves_input (x : Quantities d K) : (waves h).input x =
    diagonal (m.gref z0) *ᵥ (x.1 + diagonal z0 *ᵥ x.2) := by
  rw [← one_smul K (diagonal z0 *ᵥ x.2)]
  exact wave_eq 1 x

@[simp]
theorem waves_output (x : Quantities d K) : (waves h).output x =
    diagonal (m.gref z0) *ᵥ (x.1 - diagonal z0 *ᵥ x.2) := by
  rw [sub_eq_add_neg, ← neg_one_smul K (diagonal z0 *ᵥ x.2)]
  exact wave_eq (-1) x

theorem current_eq_zero
    (hx : (waves h).output x = (waves h).input x) : x.2 = 0 := by
  funext k
  have hk := congrFun hx k
  have htwo : 2 * (z0 k * x.2 k) = 0 := by linear_combination -mul_left_cancel₀ (h.root k) hk
  exact (mul_eq_zero.mp ((mul_eq_zero.mp htwo).resolve_left (NeZero.ne 2))).resolve_left
    (h.impedance k)

theorem voltage_eq_zero
    (hx : (waves h).output x = -(waves h).input x) : x.1 = 0 := by
  funext k
  have hk : m.gref z0 k * (x.1 k + -1 * (z0 k * x.2 k)) =
    -(m.gref z0 k * (x.1 k + 1 * (z0 k * x.2 k))) := congrFun hx k
  have htwo : m.gref z0 k * (2 * x.1 k) = 0 := by linear_combination hk
  exact (mul_eq_zero.mp ((mul_eq_zero.mp htwo).resolve_left (h.root k))).resolve_left (NeZero.ne 2)

/-- The waves of a network, sorted by voltages and currents. -/
theorem mem_waves {h : Admissible m z0} {s : Matrix (Fin d) (Fin d) K} :
    x ∈ (waves h).graph s ↔ (1 - s) *ᵥ diagonal (m.gref z0) *ᵥ x.1 =
      (s * diagonal z0 + diagonal z0) *ᵥ diagonal (m.gref z0) *ᵥ x.2 := by
  have hcomm : diagonal (m.gref z0) * diagonal z0 = diagonal z0 * diagonal (m.gref z0) := by
    rw [diagonal_mul_diagonal, diagonal_mul_diagonal]
    exact congrArg diagonal (funext fun k => mul_comm _ _)
  rw [mem_graph, waves_input, waves_output, mulVec_sub, mulVec_add, mulVec_add,
    mulVec_mulVec, hcomm, sub_mulVec, one_mulVec, add_mulVec, ← mulVec_mulVec, ← mulVec_mulVec]
  constructor
  · intro hx
    linear_combination hx
  · intro hx
    linear_combination hx

end Frames

/-! ## Conversions keep the network -/

section Conversions

variable {m} {s z y : Matrix (Fin d) (Fin d) K}

theorem Numbers.inverse_eq_some_iff {A E : Matrix (Fin d) (Fin d) K} :
    m.inverse A = some E ↔ E * A = 1 := Linear.inverse_eq_some_iff m.toMagnitude

theorem ztoy_eq_some_iff :
    ztoy m z = some y ↔ (impedance d K).graph z = (admittance d K).graph y := by
  refine converts_iff ?_ ?_
  · intro z y hy x hx
    have hinv := Numbers.inverse_eq_some_iff.mp hy
    rw [mem_admittance, mem_impedance.mp hx, mulVec_mulVec, hinv, one_mulVec]
  · intro z y hzy
    refine exists_inverse _ fun u hu => ?_
    have hx : ((0, u) : Quantities d K) ∈ (admittance d K).graph y := by
      rw [← hzy, mem_impedance, hu]
    rw [mem_admittance, mulVec_zero] at hx
    exact hx

variable {z0 : Fin d → K}

theorem Admissible.exists_inverse (h : Admissible m z0) :
    ∃ g, m.inverse (diagonal (m.gref z0)) = some g := by
  refine Linear.exists_inverse _ fun u hu => funext fun k => ?_
  have hk : m.gref z0 k * u k = 0 := by rw [← mulVec_diagonal, hu, Pi.zero_apply]
  exact (mul_eq_zero.mp hk).resolve_left (h.root k)

section Defined

variable (h : Admissible m z0)
include h

theorem exists_stoz (he : ∃ e, m.inverse (1 - s) = some e) : ∃ z, stoz m s z0 = some z := by
  obtain ⟨g, hg⟩ := h.exists_inverse
  obtain ⟨e, he⟩ := he
  exact ⟨_, by simp only [stoz, hg, he]; rfl⟩

theorem exists_ztos (he : ∃ e, m.inverse (z + diagonal z0) = some e) :
    ∃ s, ztos m z z0 = some s := by
  obtain ⟨g, hg⟩ := h.exists_inverse
  obtain ⟨e, he⟩ := he
  exact ⟨_, by simp only [ztos, hg, he]; rfl⟩

theorem exists_stoy (he : ∃ e, m.inverse (s * diagonal z0 + diagonal z0) = some e) :
    ∃ y, stoy m s z0 = some y := by
  obtain ⟨g, hg⟩ := h.exists_inverse
  obtain ⟨e, he⟩ := he
  exact ⟨_, by simp only [stoy, hg, he]; rfl⟩

theorem exists_ytos (he : ∃ e, m.inverse (1 + diagonal z0 * y) = some e) :
    ∃ s, ytos m y z0 = some s := by
  obtain ⟨g, hg⟩ := h.exists_inverse
  obtain ⟨e, he⟩ := he
  exact ⟨_, by simp only [ytos, hg, he]; rfl⟩

end Defined

variable [NeZero (2 : K)] (h : Admissible m z0)

theorem stoz_eq_some_iff : stoz m s z0 = some z ↔ (waves h).graph s = (impedance d K).graph z := by
  refine converts_iff (f := fun s => stoz m s z0) ?_ ?_
  · intro s z hz x hx
    simp only [stoz, bind_eq_bind, bind_eq_some_iff, pure_def,
      some_inj, Numbers.inverse_eq_some_iff] at hz
    obtain ⟨g, hg, e, he, rfl⟩ := hz
    rw [mem_waves] at hx
    rw [mem_impedance]
    simp only [← mulVec_mulVec, ← hx]
    rw [mulVec_mulVec _ e, he, one_mulVec, mulVec_mulVec, hg, one_mulVec]
  · intro s z hsz
    refine exists_stoz h (exists_inverse _ fun u hu => ?_)
    rw [sub_mulVec, one_mulVec, sub_eq_zero] at hu
    obtain ⟨x, hx, hin⟩ := (waves h).exists_mem_graph s u
    have hout : (waves h).output x = (waves h).input x := by rw [mem_graph.mp hx, hin, ← hu]
    rw [hsz] at hx
    rw [← hin, (impedance d K).eq_zero_of_mem_graph hx (current_eq_zero h hout), map_zero]

theorem ztos_eq_some_iff : ztos m z z0 = some s ↔ (impedance d K).graph z = (waves h).graph s := by
  refine converts_iff (f := fun z => ztos m z z0) ?_ ?_
  · intro z s hs x hx
    simp only [ztos, bind_eq_bind, bind_eq_some_iff, pure_def,
      some_inj, Numbers.inverse_eq_some_iff] at hs
    obtain ⟨e, he, g, hg, rfl⟩ := hs
    rw [mem_graph, waves_input, waves_output, mem_impedance.mp hx, ← add_mulVec, ← sub_mulVec]
    simp only [← mulVec_mulVec]
    rw [mulVec_mulVec _ g, hg, one_mulVec, mulVec_mulVec _ e, he, one_mulVec]
  · intro z s hzs
    refine exists_ztos h (exists_inverse _ fun u hu => ?_)
    have hx : ((z *ᵥ u, u) : Quantities d K) ∈ (waves h).graph s := by rw [← hzs, mem_impedance]
    have hin : (waves h).input (z *ᵥ u, u) = 0 := by rw [waves_input, ← add_mulVec, hu, mulVec_zero]
    exact congrArg Prod.snd ((waves h).eq_zero_of_mem_graph hx hin)

theorem stoy_eq_some_iff : stoy m s z0 = some y ↔ (waves h).graph s = (admittance d K).graph y := by
  refine converts_iff (f := fun s => stoy m s z0) ?_ ?_
  · intro s y hy x hx
    simp only [stoy, bind_eq_bind, bind_eq_some_iff, pure_def,
      some_inj, Numbers.inverse_eq_some_iff] at hy
    obtain ⟨g, hg, e, he, rfl⟩ := hy
    rw [mem_waves] at hx
    rw [mem_admittance]
    simp only [← mulVec_mulVec, hx]
    rw [mulVec_mulVec _ e, he, one_mulVec, mulVec_mulVec, hg, one_mulVec]
  · intro s y hsy
    refine exists_stoy h (exists_inverse _ fun u hu => ?_)
    obtain ⟨x, hx, hin⟩ := (waves h).exists_mem_graph s (diagonal z0 *ᵥ u)
    have hout : (waves h).output x = -(waves h).input x := by
      rw [mem_graph.mp hx, hin, eq_neg_iff_add_eq_zero, mulVec_mulVec, ← add_mulVec, hu]
    rw [hsy] at hx
    rw [(admittance d K).eq_zero_of_mem_graph hx (voltage_eq_zero h hout), map_zero] at hin
    funext k
    have hk : z0 k * u k = 0 := by rw [← mulVec_diagonal, ← hin, Pi.zero_apply]
    exact (mul_eq_zero.mp hk).resolve_left (h.impedance k)

theorem ytos_eq_some_iff : ytos m y z0 = some s ↔ (admittance d K).graph y = (waves h).graph s := by
  refine converts_iff (f := fun y => ytos m y z0) ?_ ?_
  · intro y s hs x hx
    simp only [ytos, bind_eq_bind, bind_eq_some_iff, pure_def,
      some_inj, Numbers.inverse_eq_some_iff] at hs
    obtain ⟨e, he, g, hg, rfl⟩ := hs
    have hplus : x.1 + diagonal z0 *ᵥ x.2 = (1 + diagonal z0 * y) *ᵥ x.1 := by
      rw [mem_admittance.mp hx, add_mulVec, one_mulVec, mulVec_mulVec]
    have hminus : x.1 - diagonal z0 *ᵥ x.2 = (1 - diagonal z0 * y) *ᵥ x.1 := by
      rw [mem_admittance.mp hx, sub_mulVec, one_mulVec, mulVec_mulVec]
    rw [mem_graph, waves_input, waves_output, hplus, hminus]
    generalize 1 + diagonal z0 * y = plus at he ⊢
    generalize 1 - diagonal z0 * y = minus
    simp only [← mulVec_mulVec]
    rw [mulVec_mulVec _ g, hg, one_mulVec, mulVec_mulVec _ e, he, one_mulVec]
  · intro y s hys
    refine exists_ytos h (exists_inverse _ fun u hu => ?_)
    have hx : ((u, y *ᵥ u) : Quantities d K) ∈ (waves h).graph s := by rw [← hys, mem_admittance]
    have hin : (waves h).input (u, y *ᵥ u) = 0 := by
      rw [add_mulVec, one_mulVec, ← mulVec_mulVec] at hu
      rw [waves_input, hu, mulVec_zero]
    exact congrArg Prod.fst ((waves h).eq_zero_of_mem_graph hx hin)

end Conversions

/-! ## Other reference impedances -/

section Renormalization

variable {m} {s s' : Matrix (Fin d) (Fin d) K} {zref z0 : Fin d → K} [NeZero (2 : K)]

/-- What the conversion to other reference impedances needs of them. -/
structure Convertible (m : Numbers K V) (zref z0 : Fin d → K) : Prop where
  sum : ∀ i, z0 i + zref i ≠ 0
  root : ∀ i, m.sqrt (z0 i / zref i) * m.gref z0 i = m.gref zref i

theorem Convertible.scaling_ne_zero (hc : Convertible m zref z0) (href : Admissible m zref)
    (k : Fin d) : m.scaling zref z0 k ≠ 0 := by
  have hroot := hc.root k
  refine div_ne_zero (mul_ne_zero (mul_ne_zero (fun hzero => ?_) (NeZero.ne 2)) ?_) (hc.sum k)
  · rw [hzero, zero_mul] at hroot
    exact href.root k hroot.symm
  · exact href.impedance k

/-- The waves for other impedances: `1 / a` times the difference of one wave and `r` times
the other. -/
theorem wave_renormalized (hc : Convertible m zref z0) (href : Admissible m zref)
    (sign : K) (x : Quantities d K) : wave m z0 sign x =
      diagonal (fun i => 1 / m.scaling zref z0 i) *ᵥ
        (wave m zref sign x - diagonal (reflection zref z0) *ᵥ wave m zref (-sign) x) := by
  funext k
  have ha := hc.scaling_ne_zero href k
  have hsum := hc.sum k
  rw [mulVec_diagonal, Pi.sub_apply, mulVec_diagonal, one_div_mul_eq_div, eq_div_iff ha]
  simp only [wave, LinearMap.coe_mk, AddHom.coe_mk, ← hc.root k, Numbers.scaling, reflection]
  field_simp
  ring

section Described

variable (href : Admissible m zref) (h : Admissible m z0) (hc : Convertible m zref z0)
  {x : Quantities d K} (hx : x ∈ (waves href).graph s)
include hc hx

theorem waves_input_renormalized : (waves h).input x =
    diagonal (fun i => 1 / m.scaling zref z0 i) *ᵥ
      (1 - diagonal (reflection zref z0) * s) *ᵥ (waves href).input x := by
  rw [sub_mulVec, one_mulVec, ← mulVec_mulVec, ← mem_graph.mp hx]
  exact wave_renormalized hc href 1 x

theorem waves_output_renormalized : (waves h).output x =
    diagonal (fun i => 1 / m.scaling zref z0 i) *ᵥ
      (s - diagonal (reflection zref z0)) *ᵥ (waves href).input x := by
  rw [sub_mulVec, ← mem_graph.mp hx]
  have hwave := wave_renormalized hc href (-1) x
  rw [neg_neg] at hwave
  exact hwave

end Described

theorem stos_eq_some_iff (href : Admissible m zref) (h : Admissible m z0)
    (hc : Convertible m zref z0) :
    stos m s zref z0 = some s' ↔ (waves href).graph s = (waves h).graph s' := by
  have hcancel :
      diagonal (m.scaling zref z0) * diagonal (fun i => 1 / m.scaling zref z0 i) = 1 := by
    rw [diagonal_mul_diagonal, ← diagonal_one]
    exact congrArg diagonal (funext fun k => mul_one_div_cancel (hc.scaling_ne_zero href k))
  refine converts_iff (f := fun s => stos m s zref z0) ?_ ?_
  · intro s s' hs' x hx
    simp only [stos, bind_eq_bind, bind_eq_some_iff, pure_def,
      some_inj, Numbers.inverse_eq_some_iff] at hs'
    obtain ⟨e, he, rfl⟩ := hs'
    rw [mem_graph, waves_input_renormalized href h hc hx, waves_output_renormalized href h hc hx]
    generalize 1 - diagonal (reflection zref z0) * s = plus at he ⊢
    simp only [← mulVec_mulVec]
    rw [mulVec_mulVec _ (diagonal (m.scaling zref z0)), hcancel, one_mulVec, mulVec_mulVec _ e,
      he, one_mulVec]
  · intro s s' hss'
    obtain ⟨e, he⟩ : ∃ e, m.inverse (1 - diagonal (reflection zref z0) * s) = some e := by
      refine exists_inverse _ fun u hu => ?_
      obtain ⟨x, hx, hin⟩ := (waves href).exists_mem_graph s u
      have hzero : (waves h).input x = 0 := by
        rw [waves_input_renormalized href h hc hx, hin, hu, mulVec_zero]
      rw [hss'] at hx
      rw [← hin, (waves h).eq_zero_of_mem_graph hx hzero, map_zero]
    exact ⟨_, by simp only [stos, he]; rfl⟩

end Renormalization

/-! ## The complex numbers -/

/-- The complex numbers, with the principal square root. -/
noncomputable def complexes : Numbers ℂ ℝ where
  toMagnitude := modulus
  sqrt z := z ^ (1 / 2 : ℂ)
  real z := z.re
  conj z := star z
  fabs z := ‖z‖

def Positive (z0 : Fin d → ℂ) : Prop := ∀ i, ∃ r : ℝ, 0 < r ∧ z0 i = r

theorem sqrt_complexes {r : ℝ} (hr : 0 ≤ r) : complexes.sqrt r = (√r : ℝ) := by
  rw [Real.sqrt_eq_rpow, Complex.ofReal_cpow hr]
  norm_num [complexes]

variable {z0 : Fin d → ℂ}

theorem gref_complexes {i : Fin d} {r : ℝ} (hr : 0 < r) (hz : z0 i = r) :
    complexes.gref z0 i = (√(1 / r) : ℝ) := by
  have hreal : complexes.real (1 / z0 i) = (1 / r : ℝ) := by
    rw [hz, ← Complex.ofReal_one, ← Complex.ofReal_div]
    rfl
  rw [Numbers.gref, hreal, sqrt_complexes (by positivity)]

theorem Positive.admissible (h : Positive z0) : Admissible complexes z0 := by
  constructor
  case impedance =>
    intro i
    obtain ⟨r, hr, hz⟩ := h i
    rw [hz]
    exact_mod_cast hr.ne'
  case root =>
    intro i
    obtain ⟨r, hr, hz⟩ := h i
    rw [gref_complexes hr hz]
    exact_mod_cast (Real.sqrt_pos.mpr (one_div_pos.mpr hr)).ne'

theorem Positive.convertible {zref z0 : Fin d → ℂ} (href : Positive zref) (h : Positive z0) :
    Convertible complexes zref z0 := by
  constructor
  case sum =>
    intro i
    obtain ⟨r, hr, hz⟩ := href i
    obtain ⟨q, hq, hz0⟩ := h i
    rw [hz, hz0]
    exact_mod_cast (add_pos hq hr).ne'
  case root =>
    intro i
    obtain ⟨r, hr, hz⟩ := href i
    obtain ⟨q, hq, hz0⟩ := h i
    rw [gref_complexes hr hz, gref_complexes hq hz0, hz, hz0, ← Complex.ofReal_div,
      sqrt_complexes (by positivity), ← Complex.ofReal_mul, ← Real.sqrt_mul (by positivity)]
    congr 2
    field_simp

/-- **The conversions are consistent**: `ztos` inverts `stoz`, `ytos` inverts `stoy`,
`stoy` is the inverse of `stoz`, and `stos` is `ztos` after `stoz` and composes. -/
theorem conversions_consistent {z1 z2 z3 : Fin d → ℂ} (h1 : Positive z1) (h2 : Positive z2)
    (h3 : Positive z3) (s z y : Matrix (Fin d) (Fin d) ℂ) :
    (stoz complexes s z1 = some z ↔ ztos complexes z z1 = some s) ∧
    (stoy complexes s z1 = some y ↔ ytos complexes y z1 = some s) ∧
    (stoz complexes s z1 = some z → stoy complexes s z1 = inverse modulus z) ∧
    (stoz complexes s z1 = some z → stos complexes s z1 z2 = ztos complexes z z2) ∧
    ∀ s', stos complexes s z1 z2 = some s' → stos complexes s' z2 z3 = stos complexes s z1 z3 := by
  rw [stoz_eq_some_iff h1.admissible, ztos_eq_some_iff h1.admissible,
    stoy_eq_some_iff h1.admissible, ytos_eq_some_iff h1.admissible]
  refine ⟨eq_comm, eq_comm, fun hz => ext fun y => ?_, fun hz => ext fun s' => ?_,
    fun s' hs => ext fun s'' => ?_⟩
  · rw [stoy_eq_some_iff h1.admissible, hz]
    exact (ztoy_eq_some_iff (m := complexes)).symm
  · rw [ztos_eq_some_iff h2.admissible,
      stos_eq_some_iff h1.admissible h2.admissible (h1.convertible h2), hz]
  · rw [stos_eq_some_iff h1.admissible h2.admissible (h1.convertible h2)] at hs
    rw [stos_eq_some_iff h2.admissible h3.admissible (h2.convertible h3),
      stos_eq_some_iff h1.admissible h3.admissible (h1.convertible h3), hs]

/-- One reference impedance for all ports. -/
theorem stoz_uniform [NeZero (2 : K)] {m : Numbers K V} {c : K}
    (h : Admissible m fun _ : Fin d => c) {s z : Matrix (Fin d) (Fin d) K}
    (hz : (1 - s) * z = 1 + s) : stoz m s (fun _ => c) = some (c • z) := by
  have hwaves : z - 1 = s * (z + 1) := by
    rw [sub_mul, one_mul, sub_eq_iff_eq_add, add_assoc] at hz
    rw [sub_eq_iff_eq_add', mul_add, mul_one, add_comm (s * z), ← hz]
  have hscale : diagonal (m.gref fun _ : Fin d => c) = m.sqrt (m.real (1 / c)) • 1 :=
    (smul_one_eq_diagonal _).symm
  rw [stoz_eq_some_iff h]
  refine (graph_eq_of_subset fun x hx => ?_).symm
  rw [mem_graph, waves_input, waves_output, mem_impedance.mp hx, hscale, ← smul_one_eq_diagonal,
    ← sub_mulVec, ← add_mulVec, ← smul_sub, ← smul_add, hwaves]
  simp only [smul_mulVec, mulVec_smul, mulVec_mulVec, smul_mul_assoc, one_mul]

theorem positive_ofReal {r : Fin d → ℝ} (hr : ∀ i, 0 < r i) : Positive fun i => (r i : ℂ) :=
  fun i => ⟨r i, hr i, rfl⟩

/-- Two ports that reflect nothing and pass on one half. -/
noncomputable def attenuator : Matrix (Fin 2) (Fin 2) ℂ := !![0, 1 / 2; 1 / 2, 0]

/-- Its impedances, divided by those of the ports. -/
noncomputable def attenuatorZ : Matrix (Fin 2) (Fin 2) ℂ := !![5 / 3, 4 / 3; 4 / 3, 5 / 3]

theorem attenuator_mul : (1 - attenuator) * attenuatorZ = 1 + attenuator := by
  ext i j
  fin_cases i <;> fin_cases j <;> simp [attenuator, attenuatorZ, mul_apply] <;> norm_num

theorem conversions_consistent_attenuator :
    stos complexes attenuator (fun _ => ((50 : ℝ) : ℂ)) (fun i => ((![75, 50] : Fin 2 → ℝ) i : ℂ)) =
      ztos complexes (((50 : ℝ) : ℂ) • attenuatorZ) (fun i => ((![75, 50] : Fin 2 → ℝ) i : ℂ)) := by
  have h1 : Positive (fun _ : Fin 2 => ((50 : ℝ) : ℂ)) := positive_ofReal fun _ => by norm_num
  have h2 : Positive (fun i => ((![75, 50] : Fin 2 → ℝ) i : ℂ)) :=
    positive_ofReal fun i => by fin_cases i <;> norm_num
  exact (conversions_consistent h1 h2 h1 _ _ 0).2.2.2.1 (stoz_uniform h1.admissible attenuator_mul)

end Qucs.Ports
