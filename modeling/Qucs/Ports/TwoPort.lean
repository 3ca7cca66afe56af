/-
# The seven matrices of a two-port

`math/matrix.cpp`. `twoport` converts a matrix of two ports between
seven representations, with 50 ohms where waves are involved.

Each representation is a frame (`frame`):

    Y    v1  v2  to  i1  i2        A    v2 -i2  to  v1  i1
    Z    i1  i2  to  v1  v2        S    a1  a2  to  b1  b2
    H    i1  v2  to  v1  i2        T    a2  b2  to  b1  a1
    G    v1  i2  to  i1  v2

and a conversion is right if it keeps what the matrix describes (`Keeps`). All are
right but these:

    H to Y          reads row 2 of a matrix with rows 0 and 1
    S to T, T to S  write the entry (0, 1) twice and leave (1, 1) zero
    T with Y, Z, H, G, A  are missing: the result is the zero matrix

`twoport_agree_iff` says for which triples of representations, and for which matrices,
**the way over a third representation is the direct one** in spite of this.
-/
import Qucs.Ports.Correlations

namespace Qucs.Ports

open Linear Lib.Frames Matrix Frame

/-- The letters of `twoport`. -/
inductive Rep where
  | Y
  | Z
  | H
  | G
  | A
  | S
  | T
  deriving DecidableEq, Repr

/-! ## The functions -/

section Functions

variable {K V : Type*} [Field K] [Field V] [LinearOrder V] (m : Numbers K V)
  (M : Matrix (Fin 2) (Fin 2) K)

/-- The entries are in one array, row by row; what is behind its end is not defined. -/
def get (r c : ℕ) : Option K := [M 0 0, M 0 1, M 1 0, M 1 1][r * 2 + c]?

variable (s : Matrix (Fin 2) (Fin 2) K)

/-- From S- to A-parameters. -/
def stoa (z1 z2 : K) : Matrix (Fin 2) (Fin 2) K :=
  let d := s 0 0 * s 1 1 - s 0 1 * s 1 0
  let n := 2 * s 1 0 * m.sqrt (m.fabs (m.real z1 * m.real z2))
  !![(m.conj z1 + z1 * s 0 0 - m.conj z1 * s 1 1 - z1 * d) / n,
    (m.conj z1 * m.conj z2 + z1 * m.conj z2 * s 0 0 + m.conj z1 * z2 * s 1 1 + z1 * z2 * d) / n;
    (1 - s 0 0 - s 1 1 + d) / n,
    (m.conj z2 - m.conj z2 * s 0 0 + z2 * s 1 1 - z2 * d) / n]

/-- From A- to S-parameters. -/
def atos (a : Matrix (Fin 2) (Fin 2) K) (z1 z2 : K) : Matrix (Fin 2) (Fin 2) K :=
  let d := 2 * m.sqrt (m.fabs (m.real z1 * m.real z2))
  let n := a 0 0 * z2 + a 0 1 + a 1 0 * z1 * z2 + a 1 1 * z1
  !![(a 0 0 * z2 + a 0 1 - a 1 0 * m.conj z1 * z2 - a 1 1 * m.conj z1) / n,
    (a 0 0 * a 1 1 - a 0 1 * a 1 0) * d / n;
    d / n,
    (a 1 1 * z1 - a 0 0 * m.conj z2 + a 0 1 - a 1 0 * z1 * m.conj z2) / n]

/-- From S- to H-parameters. -/
def stoh (z1 z2 : K) : Matrix (Fin 2) (Fin 2) K :=
  let n := s 0 1 * s 1 0
  let d := (1 - s 0 0) * (1 + s 1 1) + n
  !![((1 + s 0 0) * (1 + s 1 1) - n) * z1 / d, 2 * s 0 1 / d;
    -2 * s 1 0 / d, ((1 - s 0 0) * (1 - s 1 1) - n) / z2 / d]

/-- From H- to S-parameters. -/
def htos (h : Matrix (Fin 2) (Fin 2) K) (z1 z2 : K) : Matrix (Fin 2) (Fin 2) K :=
  let n := h 0 1 * h 1 0
  let d := (1 + h 0 0 / z1) * (1 + z2 * h 1 1) - n
  !![((h 0 0 / z1 - 1) * (1 + z2 * h 1 1) - n) / d, 2 * h 0 1 / d;
    -2 * h 1 0 / d, ((1 + h 0 0 / z1) * (1 - z2 * h 1 1) + n) / d]

/-- From S- to G-parameters. -/
def stog (z1 z2 : K) : Matrix (Fin 2) (Fin 2) K :=
  let n := s 0 1 * s 1 0
  let d := (1 + s 0 0) * (1 - s 1 1) + n
  !![((1 - s 0 0) * (1 - s 1 1) - n) / z1 / d, -2 * s 0 1 / d;
    2 * s 1 0 / d, ((1 + s 0 0) * (1 + s 1 1) - n) * z2 / d]

/-- From G- to S-parameters. -/
def gtos (g : Matrix (Fin 2) (Fin 2) K) (z1 z2 : K) : Matrix (Fin 2) (Fin 2) K :=
  let n := g 0 1 * g 1 0
  let d := (1 + g 0 0 * z1) * (1 + g 1 1 / z2) - n
  !![((1 - g 0 0 * z1) * (1 + g 1 1 / z2) + n) / d, -2 * g 0 1 / d;
    2 * g 1 0 / d, ((g 0 0 * z1 + 1) * (g 1 1 / z2 - 1) - n) / d]

/-- The formula of Y to H, Z to G and G to Z: the first input and the first output change
places. -/
def exchangeFirst : Matrix (Fin 2) (Fin 2) K :=
  let d := M 0 0
  !![1 / d, -M 0 1 / d; M 1 0 / d, M 1 1 - M 0 1 * M 1 0 / d]

/-- The formula of Y to G, Z to H, H to Z and G to Y. -/
def exchangeSecond : Matrix (Fin 2) (Fin 2) K :=
  let d := M 1 1
  !![M 0 0 - M 0 1 * M 1 0 / d, M 0 1 / d; -M 1 0 / d, 1 / d]

/-- The formula of Y to Z, Z to Y, H to G and G to H. -/
def exchangeBoth : Matrix (Fin 2) (Fin 2) K :=
  let d := M 0 0 * M 1 1 - M 0 1 * M 1 0
  !![M 1 1 / d, -M 0 1 / d; -M 1 0 / d, M 0 0 / d]

/-- The formula of Z to A and A to Z. -/
def exchangeChain : Matrix (Fin 2) (Fin 2) K :=
  let d := M 1 0
  !![M 0 0 / d, M 0 0 * M 1 1 / d - M 0 1; 1 / d, M 1 1 / d]

/-- The default of the reference impedances. -/
def fiftyOhms (_ : Fin 2) : K := 50

/-- A result that no branch sets is the zero matrix. -/
def twoport : Rep → Rep → Option (Matrix (Fin 2) (Fin 2) K)
  | .Y, .Y => some M
  | .Y, .Z => some (exchangeBoth M)
  | .Y, .H => some (exchangeFirst M)
  | .Y, .G => some (exchangeSecond M)
  | .Y, .A =>
    let d := M 1 0
    some !![-M 1 1 / d, -1 / d; M 0 1 - M 1 1 * M 0 0 / d, -M 0 0 / d]
  | .Y, .S => ytos m M fiftyOhms
  | .Z, .Y => some (exchangeBoth M)
  | .Z, .Z => some M
  | .Z, .H => some (exchangeSecond M)
  | .Z, .G => some (exchangeFirst M)
  | .Z, .A => some (exchangeChain M)
  | .Z, .S => ztos m M fiftyOhms
  | .H, .Y => do
      let d := M 0 0
      let x ← get M 2 1
      return !![1 / d, -M 0 1 / d; M 1 0 / d, M 1 1 - M 0 1 * x / d]
  | .H, .Z => some (exchangeSecond M)
  | .H, .H => some M
  | .H, .G => some (exchangeBoth M)
  | .H, .A =>
    let d := M 1 0
    some !![M 0 1 - M 0 0 * M 1 1 / d, -M 0 0 / d; -M 1 1 / d, -1 / d]
  | .H, .S => some (htos M 50 50)
  | .G, .Y => some (exchangeSecond M)
  | .G, .Z => some (exchangeFirst M)
  | .G, .H => some (exchangeBoth M)
  | .G, .G => some M
  | .G, .A =>
    let d := M 1 0
    some !![1 / d, M 1 1 / d; M 0 0 / d, M 0 0 * M 1 1 / d - M 0 1]
  | .G, .S => some (gtos M 50 50)
  | .A, .Y =>
    let d := M 0 1
    some !![M 1 1 / d, M 1 0 - M 0 0 * M 1 1 / d; -1 / d, M 0 0 / d]
  | .A, .Z => some (exchangeChain M)
  | .A, .H =>
    let d := M 1 1
    some !![M 0 1 / d, M 0 0 - M 0 1 * M 1 0 / d; -1 / d, M 1 0 / d]
  | .A, .G =>
    let d := M 0 0
    some !![M 1 0 / d, M 1 0 * M 0 1 / d - M 1 1; 1 / d, M 0 1 / d]
  | .A, .A => some M
  | .A, .S => some (atos m M 50 50)
  | .S, .S => some M
  | .S, .T =>
    let d := M 1 0
    -- the entry (0, 1) was `m (0, 0) / d` before
    some !![M 0 1 - M 0 0 * M 1 1 / d, 1 / d; -M 1 1 / d, 0]
  | .S, .A => some (stoa m M 50 50)
  | .S, .H => some (stoh M 50 50)
  | .S, .G => some (stog M 50 50)
  | .S, .Y => stoy m M fiftyOhms
  | .S, .Z => stoz m M fiftyOhms
  | .T, .S =>
    let d := M 1 1
    -- the entry (0, 1) was `m (0, 0) - m (0, 1) * m (1, 0) / d` before
    some !![M 0 1 / d, -M 1 0 / d; 1 / d, 0]
  | .T, .T => some M
  | _, .T => some 0
  | .T, _ => some 0

/-- What a conversion divides by; for the inverse of a matrix, its determinant. -/
def denominator : Rep → Rep → K
  | .Y, .Z | .Z, .Y | .H, .G | .G, .H => M 0 0 * M 1 1 - M 0 1 * M 1 0
  | .Y, .H | .Z, .G | .H, .Y | .G, .Z | .A, .G => M 0 0
  | .Y, .G | .Z, .H | .H, .Z | .G, .Y | .A, .H | .T, .S => M 1 1
  | .Y, .A | .Z, .A | .H, .A | .G, .A | .A, .Z | .S, .T => M 1 0
  | .A, .Y => M 0 1
  | .Y, .S => (1 + diagonal fiftyOhms * M).det
  | .Z, .S => (M + diagonal fiftyOhms).det
  | .H, .S => (1 + M 0 0 / 50) * (1 + 50 * M 1 1) - M 0 1 * M 1 0
  | .G, .S => (1 + M 0 0 * 50) * (1 + M 1 1 / 50) - M 0 1 * M 1 0
  | .A, .S => M 0 0 * 50 + M 0 1 + M 1 0 * 50 * 50 + M 1 1 * 50
  | .S, .A => 2 * M 1 0 * m.sqrt (m.fabs (m.real 50 * m.real 50))
  | .S, .H => (1 - M 0 0) * (1 + M 1 1) + M 0 1 * M 1 0
  | .S, .G => (1 + M 0 0) * (1 - M 1 1) + M 0 1 * M 1 0
  | .S, .Y => (M * diagonal fiftyOhms + diagonal fiftyOhms).det
  | .S, .Z => (1 - M).det
  | _, _ => 1

end Functions

/-! ## Frames -/

section Frames

variable {K : Type*} [Field K] {X : Type*} [AddCommGroup X] [Module K X]

theorem mem_graph_two {φ : Frame K (Fin 2) X} {M : Matrix (Fin 2) (Fin 2) K} {x : X} :
    x ∈ φ.graph M ↔
      φ.output x 0 = M 0 0 * φ.input x 0 + M 0 1 * φ.input x 1 ∧
      φ.output x 1 = M 1 0 * φ.input x 0 + M 1 1 * φ.input x 1 := by
  rw [mem_graph, funext_iff, Fin.forall_fin_two]
  simp [mulVec, dotProduct, Fin.sum_univ_two]

def both (f g : X →ₗ[K] K) : X →ₗ[K] Fin 2 → K := LinearMap.pi ![f, g]

@[simp]
theorem both_zero (f g : X →ₗ[K] K) (x : X) : both f g x 0 = f x := rfl

@[simp]
theorem both_one (f g : X →ₗ[K] K) (x : X) : both f g x 1 = g x := rfl

theorem both_eq {f g : X →ₗ[K] K} {x : X} {a : Fin 2 → K} (hf : f x = a 0) (hg : g x = a 1) :
    both f g x = a := by
  rw [funext_iff, Fin.forall_fin_two]
  exact ⟨hf, hg⟩

variable (K) in
def voltage (k : Fin 2) : Quantities 2 K →ₗ[K] K := LinearMap.proj k ∘ₗ LinearMap.fst K _ _

variable (K) in
def current (k : Fin 2) : Quantities 2 K →ₗ[K] K := LinearMap.proj k ∘ₗ LinearMap.snd K _ _

theorem quantities_eq_zero {x : Quantities 2 K} (hv : ∀ k, voltage K k x = 0)
    (hi : ∀ k, current K k x = 0) : x = 0 := Prod.ext (funext hv) (funext hi)

/-- H: currents at the first port, voltages at the second. -/
def hybrid (K : Type*) [Field K] : Frame K (Fin 2) (Quantities 2 K) where
  input := both (current K 0) (voltage K 1)
  output := both (voltage K 0) (current K 1)
  point a b := ⟨(![b 0, a 1], ![a 0, b 1]), both_eq rfl rfl, both_eq rfl rfl⟩
  zero _ hin hout := quantities_eq_zero
    (Fin.forall_fin_two.mpr ⟨congrFun hout 0, congrFun hin 1⟩)
    (Fin.forall_fin_two.mpr ⟨congrFun hin 0, congrFun hout 1⟩)

def inverseHybrid (K : Type*) [Field K] : Frame K (Fin 2) (Quantities 2 K) where
  input := both (voltage K 0) (current K 1)
  output := both (current K 0) (voltage K 1)
  point a b := ⟨(![a 0, b 1], ![b 0, a 1]), both_eq rfl rfl, both_eq rfl rfl⟩
  zero _ hin hout := quantities_eq_zero
    (Fin.forall_fin_two.mpr ⟨congrFun hin 0, congrFun hout 1⟩)
    (Fin.forall_fin_two.mpr ⟨congrFun hout 0, congrFun hin 1⟩)

/-- A: the current leaves the second port. -/
def chain (K : Type*) [Field K] : Frame K (Fin 2) (Quantities 2 K) where
  input := both (voltage K 1) (-current K 1)
  output := both (voltage K 0) (current K 0)
  point a b := ⟨(![b 0, a 0], ![b 1, -a 1]), both_eq rfl (neg_neg _), both_eq rfl rfl⟩
  zero _ hin hout := quantities_eq_zero
    (Fin.forall_fin_two.mpr ⟨congrFun hout 0, congrFun hin 0⟩)
    (Fin.forall_fin_two.mpr ⟨congrFun hout 1, neg_eq_zero.mp (congrFun hin 1)⟩)

end Frames

theorem admissible_fiftyOhms : Admissible complexes fiftyOhms :=
  Positive.admissible fun _ => ⟨50, by norm_num, by norm_num [fiftyOhms]⟩

/-- The frame of a representation; T has none here. -/
noncomputable def frame : (r : Rep) → r ≠ .T → Frame ℂ (Fin 2) (Quantities 2 ℂ)
  | .Y, _ => admittance 2 ℂ
  | .Z, _ => impedance 2 ℂ
  | .H, _ => hybrid ℂ
  | .G, _ => inverseHybrid ℂ
  | .A, _ => chain ℂ
  | .S, _ => waves admissible_fiftyOhms
  | .T, h => absurd rfl h

/-! ## Conversions that keep the network -/

theorem eq_div_add_div_iff {K : Type*} [Field K] {d x n n' a b : K} (hd : d ≠ 0) :
    x = n / d * a + n' / d * b ↔ x * d = n * a + n' * b := by
  rw [div_mul_eq_mul_div, div_mul_eq_mul_div, ← add_div, eq_div_iff hd]

section Equations

variable {K : Type*} [Field K] {M : Matrix (Fin 2) (Fin 2) K} {x : Quantities 2 K}

theorem mem_admittance_two : x ∈ (admittance 2 K).graph M ↔
    x.2 0 = M 0 0 * x.1 0 + M 0 1 * x.1 1 ∧ x.2 1 = M 1 0 * x.1 0 + M 1 1 * x.1 1 :=
  mem_graph_two

theorem mem_impedance_two : x ∈ (impedance 2 K).graph M ↔
    x.1 0 = M 0 0 * x.2 0 + M 0 1 * x.2 1 ∧ x.1 1 = M 1 0 * x.2 0 + M 1 1 * x.2 1 :=
  mem_graph_two

theorem mem_hybrid : x ∈ (hybrid K).graph M ↔
    x.1 0 = M 0 0 * x.2 0 + M 0 1 * x.1 1 ∧ x.2 1 = M 1 0 * x.2 0 + M 1 1 * x.1 1 :=
  mem_graph_two

theorem mem_inverseHybrid : x ∈ (inverseHybrid K).graph M ↔
    x.2 0 = M 0 0 * x.1 0 + M 0 1 * x.2 1 ∧ x.1 1 = M 1 0 * x.1 0 + M 1 1 * x.2 1 :=
  mem_graph_two

theorem mem_chain : x ∈ (chain K).graph M ↔
    x.1 0 = M 0 0 * x.1 1 + M 0 1 * -x.2 1 ∧ x.2 0 = M 1 0 * x.1 1 + M 1 1 * -x.2 1 :=
  mem_graph_two

/-- The factor that all waves have drops out. -/
theorem mem_waves_two {M : Matrix (Fin 2) (Fin 2) ℂ} {x : Quantities 2 ℂ} :
    x ∈ (waves admissible_fiftyOhms).graph M ↔
      x.1 0 - 50 * x.2 0 = M 0 0 * (x.1 0 + 50 * x.2 0) + M 0 1 * (x.1 1 + 50 * x.2 1) ∧
      x.1 1 - 50 * x.2 1 = M 1 0 * (x.1 0 + 50 * x.2 0) + M 1 1 * (x.1 1 + 50 * x.2 1) := by
  have hroot := admissible_fiftyOhms.root 0
  have hwave : ∀ sign k, wave complexes fiftyOhms sign x k =
      complexes.gref fiftyOhms 0 * (x.1 k + sign * (50 * x.2 k)) := by
    intro sign k
    fin_cases k <;> rfl
  rw [mem_graph_two]
  simp only [waves, hwave]
  constructor
  · rintro ⟨h0, h1⟩
    constructor
    · refine mul_left_cancel₀ hroot ?_
      linear_combination h0
    · refine mul_left_cancel₀ hroot ?_
      linear_combination h1
  · rintro ⟨h0, h1⟩
    constructor
    · linear_combination complexes.gref fiftyOhms 0 * h0
    · linear_combination complexes.gref fiftyOhms 0 * h1

end Equations

namespace Rep

def Plain (r : Rep) : Prop := r ≠ .S ∧ r ≠ .T
  deriving Decidable

end Rep

theorem plain_keeps {M N : Matrix (Fin 2) (Fin 2) ℂ} {a b : Rep} (ha : a.Plain) (hb : b.Plain)
    (hd : denominator complexes M a b ≠ 0) (hN : twoport complexes M a b = some N) :
    (frame a ha.2).graph M = (frame b hb.2).graph N := by
  refine graph_eq_of_subset fun x hx => ?_
  cases a <;> cases b <;> first
    | exact absurd rfl ha.1
    | exact absurd rfl ha.2
    | exact absurd rfl hb.1
    | exact absurd rfl hb.2
    | (cases hN; exact hx)
    | cases hN
  all_goals
    simp only [frame, mem_admittance_two, mem_impedance_two, mem_hybrid, mem_inverseHybrid,
      mem_chain] at hx ⊢
    obtain ⟨hx0, hx1⟩ := hx
    rw [hx0, hx1]
    simp only [denominator, exchangeFirst, exchangeSecond, exchangeBoth, exchangeChain, of_apply,
      cons_val] at hd ⊢
    first
      | (rw [eq_div_add_div_iff hd, eq_div_add_div_iff hd]; constructor <;> ring)
      | (constructor <;> field_simp <;> ring)

section Waves

variable {M N : Matrix (Fin 2) (Fin 2) ℂ}

theorem sqrt_fifty :
    complexes.sqrt (complexes.fabs (complexes.real 50 * complexes.real 50)) = 50 := by
  have hreal : complexes.fabs (complexes.real 50 * complexes.real 50) = ((50 * 50 : ℝ) : ℂ) := by
    norm_num [complexes]
  rw [hreal, sqrt_complexes (by norm_num), Real.sqrt_mul_self (by norm_num)]
  norm_num

theorem conj_fifty : complexes.conj 50 = 50 := star_ofNat 50

/-- All quantities of a network in terms of its incoming waves. -/
theorem waves_two_cases {x : Quantities 2 ℂ} (hx : x ∈ (waves admissible_fiftyOhms).graph M) :
    ∃ p q,
      x.1 0 = (p + (M 0 0 * p + M 0 1 * q)) / 2 ∧ x.2 0 = (p - (M 0 0 * p + M 0 1 * q)) / 100 ∧
      x.1 1 = (q + (M 1 0 * p + M 1 1 * q)) / 2 ∧ x.2 1 = (q - (M 1 0 * p + M 1 1 * q)) / 100 := by
  obtain ⟨h0, h1⟩ := mem_waves_two.mp hx
  refine ⟨x.1 0 + 50 * x.2 0, x.1 1 + 50 * x.2 1, ?_, ?_, ?_, ?_⟩
  · rw [← h0]
    ring
  · rw [← h0]
    ring
  · rw [← h1]
    ring
  · rw [← h1]
    ring

theorem waves_keeps {b : Rep} (hb : b = .H ∨ b = .G ∨ b = .A) (hT : b ≠ .T)
    (hd : denominator complexes M .S b ≠ 0) (hN : twoport complexes M .S b = some N) :
    (waves admissible_fiftyOhms).graph M = (frame b hT).graph N := by
  refine graph_eq_of_subset fun x hx => ?_
  obtain ⟨p, q, hv0, hi0, hv1, hi1⟩ := waves_two_cases hx
  rcases hb with rfl | rfl | rfl <;> cases hN
  all_goals
    simp only [frame, mem_hybrid, mem_inverseHybrid, mem_chain]
    simp only [denominator, sqrt_fifty] at hd
    rw [hv0, hi0, hv1, hi1]
    simp only [stoh, stog, stoa, conj_fifty, sqrt_fifty, of_apply, cons_val]
    rw [eq_div_add_div_iff hd, eq_div_add_div_iff hd]
    constructor <;> ring

theorem keeps_waves {a : Rep} (ha : a = .H ∨ a = .G ∨ a = .A) (hT : a ≠ .T)
    (hd : denominator complexes M a .S ≠ 0) (hN : twoport complexes M a .S = some N) :
    (frame a hT).graph M = (waves admissible_fiftyOhms).graph N := by
  refine graph_eq_of_subset fun x hx => ?_
  rcases ha with rfl | rfl | rfl <;> cases hN
  all_goals
    simp only [frame, mem_hybrid, mem_inverseHybrid, mem_chain] at hx
    obtain ⟨hx0, hx1⟩ := hx
    rw [mem_waves_two, hx0, hx1]
    simp only [denominator] at hd
    simp only [htos, gtos, atos, conj_fifty, sqrt_fifty, of_apply, cons_val]
    rw [eq_div_add_div_iff hd, eq_div_add_div_iff hd]
    constructor <;> ring

end Waves

/-- **Conversions without T, and without H to Y, keep the network.** -/
theorem twoport_keeps {M : Matrix (Fin 2) (Fin 2) ℂ} {a b : Rep} (ha : a ≠ .T) (hb : b ≠ .T)
    (hab : ¬(a = .H ∧ b = .Y)) (hd : denominator complexes M a b ≠ 0) :
    ∃ N, twoport complexes M a b = some N ∧ (frame a ha).graph M = (frame b hb).graph N := by
  by_cases hS : a = .S ∨ b = .S
  case neg =>
    have ha' : a.Plain := ⟨fun h => hS (.inl h), ha⟩
    have hb' : b.Plain := ⟨fun h => hS (.inr h), hb⟩
    have hN : (twoport complexes M a b).isSome := by
      cases a <;> cases b <;> first
        | rfl
        | exact absurd ⟨rfl, rfl⟩ hab
        | exact absurd (by decide) hS
    obtain ⟨N, hN⟩ := Option.isSome_iff_exists.mp hN
    exact ⟨N, hN, plain_keeps ha' hb' hd hN⟩
  rcases hS with rfl | rfl
  · cases b with
    | Y =>
      obtain ⟨N, hN⟩ := exists_stoy admissible_fiftyOhms (exists_inverse_of_det _ hd)
      exact ⟨N, hN, (stoy_eq_some_iff admissible_fiftyOhms).mp hN⟩
    | Z =>
      obtain ⟨N, hN⟩ := exists_stoz admissible_fiftyOhms (exists_inverse_of_det _ hd)
      exact ⟨N, hN, (stoz_eq_some_iff admissible_fiftyOhms).mp hN⟩
    | S => exact ⟨_, rfl, rfl⟩
    | T => exact absurd rfl hb
    | _ => exact ⟨_, rfl, waves_keeps (by decide) hb hd rfl⟩
  · cases a with
    | Y =>
      obtain ⟨N, hN⟩ := exists_ytos admissible_fiftyOhms (exists_inverse_of_det _ hd)
      exact ⟨N, hN, (ytos_eq_some_iff admissible_fiftyOhms).mp hN⟩
    | Z =>
      obtain ⟨N, hN⟩ := exists_ztos admissible_fiftyOhms (exists_inverse_of_det _ hd)
      exact ⟨N, hN, (ztos_eq_some_iff admissible_fiftyOhms).mp hN⟩
    | S => exact ⟨_, rfl, rfl⟩
    | T => exact absurd rfl ha
    | _ => exact ⟨_, rfl, keeps_waves (by decide) ha hd rfl⟩

/-! ## What the other conversions return -/

section Others

variable {M N : Matrix (Fin 2) (Fin 2) ℂ} {a b c : Rep}

theorem twoport_self (M : Matrix (Fin 2) (Fin 2) ℂ) (a : Rep) :
    twoport complexes M a a = some M := by
  cases a <;> rfl

theorem twoport_T (ha : a.Plain) : twoport complexes M a .T = some 0 := by
  cases a with
  | S => exact absurd rfl ha.1
  | T => exact absurd rfl ha.2
  | _ => rfl

theorem T_twoport (ha : a.Plain) : twoport complexes M .T a = some 0 := by
  cases a with
  | S => exact absurd rfl ha.1
  | T => exact absurd rfl ha.2
  | _ => rfl

section

variable (ha : a.Plain) (hb : b.Plain) (hab : a ≠ b)
include ha hb hab

theorem denominator_zero : denominator complexes 0 a b = 0 := by
  cases a <;> cases b <;> first
    | exact absurd rfl ha.1
    | exact absurd rfl ha.2
    | exact absurd rfl hb.1
    | exact absurd rfl hb.2
    | exact absurd rfl hab
    | simp [denominator]

/-- Some input of one plain frame is, up to its sign, an output of the other. -/
theorem exists_input_eq_output :
    ∃ k l, ∀ x, (frame b hb.2).output x l = (frame a ha.2).input x k ∨
      -(frame b hb.2).output x l = (frame a ha.2).input x k := by
  cases a <;> cases b <;> first
    | exact absurd rfl ha.1
    | exact absurd rfl ha.2
    | exact absurd rfl hb.1
    | exact absurd rfl hb.2
    | exact absurd rfl hab
    | exact ⟨0, 0, fun _ => .inl rfl⟩
    | exact ⟨0, 1, fun _ => .inl rfl⟩
    | exact ⟨1, 0, fun _ => .inl rfl⟩
    | exact ⟨1, 1, fun _ => .inl rfl⟩
    | exact ⟨1, 1, fun _ => .inr rfl⟩

/-- So no matrix is converted to zero. -/
theorem twoport_ne_zero (hd : denominator complexes M a b ≠ 0) :
    twoport complexes M a b ≠ some 0 := by
  intro hzero
  by_cases hHY : a = .H ∧ b = .Y
  · rw [hHY.1, hHY.2] at hzero
    cases hzero
  obtain ⟨N, hN, hgraph⟩ := twoport_keeps ha.2 hb.2 hHY hd
  obtain rfl := Option.some_inj.mp (hN.symm.trans hzero)
  obtain ⟨k, l, hkl⟩ := exists_input_eq_output ha hb hab
  obtain ⟨x, hx, hin⟩ := (frame a ha.2).exists_mem_graph M fun _ => 1
  have hout : (frame b hb.2).output x l = 0 := by
    rw [hgraph, mem_graph, zero_mulVec] at hx
    exact congrFun hx l
  have hone := hkl x
  rw [hin, hout, neg_zero, or_self] at hone
  exact zero_ne_one hone

end

/-- A network with a zero matrix does not transmit waves. -/
theorem transmission_eq_zero (hb : b.Plain)
    (h : (waves admissible_fiftyOhms).graph M = (frame b hb.2).graph 0) : M 1 0 = 0 := by
  have hx : ((![(1 + M 0 0) / 2, M 1 0 / 2], ![(1 - M 0 0) / 100, -M 1 0 / 100]) :
      Quantities 2 ℂ) ∈ (waves admissible_fiftyOhms).graph M := by
    rw [mem_waves_two]
    simp only [cons_val_zero, cons_val_one, cons_val_fin_one]
    constructor <;> ring
  rw [h, mem_graph_two] at hx
  obtain ⟨hx0, hx1⟩ := hx
  cases b with
  | Y => simpa [frame, admittance] using hx1
  | Z => simpa [frame, impedance] using hx1
  | H => simpa [frame, hybrid, current] using hx1
  | G => simpa [frame, inverseHybrid, voltage] using hx1
  | A =>
    have hv : (1 + M 0 0) / 2 = 0 := by simpa [frame, chain, voltage] using hx0
    have hi : (1 - M 0 0) / 100 = 0 := by simpa [frame, chain, current] using hx1
    have hone : (1 : ℂ) = 0 := by linear_combination hv + 50 * hi
    exact absurd hone one_ne_zero
  | S => exact absurd rfl hb.1
  | T => exact absurd rfl hb.2

theorem S_twoport_ne_zero (hM : M 1 0 ≠ 0) (hb : b.Plain)
    (hd : denominator complexes M .S b ≠ 0) : twoport complexes M .S b ≠ some 0 := by
  intro hzero
  obtain ⟨N, hN, hgraph⟩ := twoport_keeps (by decide) hb.2 (by simp) hd
  obtain rfl := Option.some_inj.mp (hN.symm.trans hzero)
  exact hM (transmission_eq_zero hb hgraph)

theorem twoport_S_zero (ha : a.Plain) (hd : denominator complexes 0 a .S ≠ 0)
    (hN : twoport complexes 0 a .S = some N) : N 1 0 = 0 := by
  obtain ⟨N', hN', hgraph⟩ := twoport_keeps ha.2 (by decide) (by simp) hd
  obtain rfl := Option.some_inj.mp (hN.symm.trans hN')
  exact transmission_eq_zero ha hgraph.symm

end Others

/-! ## Ways over a third representation -/

section Ways

/-- Nothing is divided by zero on the way from `a` over `b` to `c`, nor on the direct one. -/
structure Divides (M : Matrix (Fin 2) (Fin 2) ℂ) (a b c : Rep) : Prop where
  first : denominator complexes M a b ≠ 0
  second : ∀ N, twoport complexes M a b = some N → denominator complexes N b c ≠ 0
  direct : denominator complexes M a c ≠ 0

def Agree (M : Matrix (Fin 2) (Fin 2) ℂ) (a b c : Rep) : Prop :=
  ∃ N, (do twoport complexes (← twoport complexes M a b) b c) = some N ∧
    twoport complexes M a c = some N

/-- The conversions in the way are right, or two of them are wrong in the same way. -/
structure Consistent (M : Matrix (Fin 2) (Fin 2) ℂ) (a b c : Rep) : Prop where
  first : ¬(a = .H ∧ b = .Y)
  second : ¬(b = .H ∧ c = .Y)
  direct : ¬(a = .H ∧ c = .Y)
  reps : (a ≠ .T ∧ b ≠ .T ∧ c ≠ .T) ∨ a = b ∨ b = c ∨ (a.Plain ∧ b.Plain ∧ c = .T) ∨
    (M = 0 ∧ a = c ∧ (a.Plain ∧ b = .T ∨ a = .T ∧ b.Plain))

variable {M N₁ N : Matrix (Fin 2) (Fin 2) ℂ} {a b c : Rep}

theorem Rep.cases_kind (r : Rep) : r.Plain ∨ r = .S ∨ r = .T := by
  cases r <;> decide

theorem agree_iff : Agree M a b c ↔ ∃ N₁ N, twoport complexes M a b = some N₁ ∧
    twoport complexes N₁ b c = some N ∧ twoport complexes M a c = some N := by
  constructor
  · rintro ⟨N, hway, hdirect⟩
    obtain ⟨N₁, hfirst, hsecond⟩ := Option.bind_eq_some_iff.mp hway
    exact ⟨N₁, N, hfirst, hsecond, hdirect⟩
  · rintro ⟨N₁, N, hfirst, hsecond, hdirect⟩
    exact ⟨N, Option.bind_eq_some_iff.mpr ⟨N₁, hfirst, hsecond⟩, hdirect⟩

theorem exists_twoport (hab : ¬(a = .H ∧ b = .Y)) (hd : denominator complexes M a b ≠ 0) :
    ∃ N, twoport complexes M a b = some N := by
  by_cases ha : a = .T
  · subst ha
    cases b <;> exact ⟨_, rfl⟩
  · by_cases hb : b = .T
    · subst hb
      cases a <;> exact ⟨_, rfl⟩
    · obtain ⟨N, hN, -⟩ := twoport_keeps ha hb hab hd
      exact ⟨N, hN⟩

theorem agree_of_consistent (hd : Divides M a b c) (h : Consistent M a b c) : Agree M a b c := by
  rw [agree_iff]
  rcases h.reps with ⟨ha, hb, hc⟩ | rfl | rfl | ⟨ha, hb, rfl⟩ | ⟨rfl, rfl, ⟨ha, rfl⟩ | ⟨rfl, hb⟩⟩
  · obtain ⟨N₁, hfirst, hgraph₁⟩ := twoport_keeps ha hb h.first hd.first
    obtain ⟨N₂, hsecond, hgraph₂⟩ := twoport_keeps hb hc h.second (hd.second N₁ hfirst)
    obtain ⟨N₃, hdirect, hgraph₃⟩ := twoport_keeps ha hc h.direct hd.direct
    have hsame : N₂ = N₃ := (frame c hc).graph_injective
      (hgraph₂.symm.trans (hgraph₁.symm.trans hgraph₃))
    exact ⟨N₁, N₂, hfirst, hsecond, hsame ▸ hdirect⟩
  · obtain ⟨N, hN⟩ := exists_twoport h.direct hd.direct
    exact ⟨M, N, twoport_self M a, hN, hN⟩
  · obtain ⟨N, hN⟩ := exists_twoport h.first hd.first
    exact ⟨N, N, hN, twoport_self N b, hN⟩
  · obtain ⟨N₁, hfirst⟩ := exists_twoport h.first hd.first
    exact ⟨N₁, 0, hfirst, twoport_T hb, twoport_T ha⟩
  · exact ⟨0, 0, twoport_T ha, T_twoport ha, twoport_self 0 a⟩
  · exact ⟨0, 0, T_twoport hb, twoport_T hb, twoport_self 0 .T⟩

/-- The result of S to T has a zero where T to S divides. -/
theorem S_T_entries (h : twoport complexes M .S .T = some N₁) :
    N₁ 0 1 = 1 / M 1 0 ∧ N₁ 1 1 = 0 := by
  cases h
  exact ⟨rfl, rfl⟩

theorem T_S_entries (h : twoport complexes M .T .S = some N₁) :
    N₁ 1 0 = 1 / M 1 1 ∧ N₁ 1 1 = 0 := by
  cases h
  exact ⟨rfl, rfl⟩

theorem result_unique {A B : Matrix (Fin 2) (Fin 2) ℂ} (h : twoport complexes M a b = some A)
    (h' : twoport complexes M a b = some B) : A = B := Option.some_inj.mp (h.symm.trans h')

section Failures

variable (hd : Divides M a b c) (hfirst : twoport complexes M a b = some N₁)
  (hsecond : twoport complexes N₁ b c = some N) (hdirect : twoport complexes M a c = some N)
include hd hfirst hsecond hdirect

theorem plain_of_to_T (ha : a ≠ .T) (hc : c = .T) (hab : a ≠ b) (hbc : b ≠ c) :
    a.Plain ∧ b.Plain := by
  subst hc
  rcases b.cases_kind with hb | rfl | rfl
  · refine ⟨⟨?_, ha⟩, hb⟩
    rintro rfl
    have hzero : N = 0 := result_unique hsecond (twoport_T hb)
    have hentry := (S_T_entries hdirect).1
    rw [hzero] at hentry
    exact one_div_ne_zero hd.direct hentry.symm
  · have hplain : a.Plain := ⟨hab, ha⟩
    have hzero : N = 0 := result_unique hdirect (twoport_T hplain)
    have hentry := (S_T_entries hsecond).1
    rw [hzero] at hentry
    exact absurd hentry.symm (one_div_ne_zero (hd.second N₁ hfirst))
  · exact absurd rfl hbc

theorem zero_of_over_T (hb : b = .T) (ha : a ≠ .T) (hc : c ≠ .T) : M = 0 ∧ a = c ∧ a.Plain := by
  subst hb
  rcases c.cases_kind with hplain | rfl | rfl
  · have hzero : N = 0 := result_unique hsecond (T_twoport hplain)
    subst hzero
    rcases a.cases_kind with ha' | rfl | rfl
    · by_cases hac : a = c
      · subst hac
        exact ⟨result_unique (twoport_self M a) hdirect, rfl, ha'⟩
      · exact absurd hdirect (twoport_ne_zero ha' hplain hac hd.direct)
    · exact absurd hdirect (S_twoport_ne_zero hd.first hplain hd.direct)
    · exact absurd rfl ha
  · have hentry := hd.second N₁ hfirst
    rcases a.cases_kind with ha' | rfl | rfl
    · rw [result_unique hfirst (twoport_T ha')] at hentry
      exact absurd rfl hentry
    · exact absurd (S_T_entries hfirst).2 hentry
    · exact absurd rfl ha
  · exact absurd rfl hc

theorem zero_of_from_T (ha : a = .T) (hab : a ≠ b) (hbc : b ≠ c) : M = 0 ∧ a = c ∧ b.Plain := by
  subst ha
  rcases b.cases_kind with hb | rfl | rfl
  · have hzero : N₁ = 0 := result_unique hfirst (T_twoport hb)
    subst hzero
    have hd₂ := hd.second 0 hfirst
    rcases c.cases_kind with hc | rfl | rfl
    · exact absurd (denominator_zero hb hc hbc) hd₂
    · have hentry := (T_S_entries hdirect).1
      rw [twoport_S_zero hb hd₂ hsecond] at hentry
      exact absurd hentry.symm (one_div_ne_zero hd.direct)
    · have hN : N = 0 := result_unique hsecond (twoport_T hb)
      subst hN
      exact ⟨result_unique (twoport_self M .T) hdirect, rfl, hb⟩
  · rcases c.cases_kind with hc | rfl | rfl
    · have hN : N = 0 := result_unique hdirect (T_twoport hc)
      subst hN
      have hentry : N₁ 1 0 ≠ 0 := by
        rw [(T_S_entries hfirst).1]
        exact one_div_ne_zero hd.first
      exact absurd hsecond (S_twoport_ne_zero hentry hc (hd.second N₁ hfirst))
    · exact absurd rfl hbc
    · have hN : M = N := result_unique (twoport_self M .T) hdirect
      have hentry : M 1 1 = 0 := by
        rw [hN]
        exact (S_T_entries hsecond).2
      exact absurd hentry hd.first
  · exact absurd rfl hab

end Failures

theorem consistent_of_agree (hd : Divides M a b c) (h : Agree M a b c) : Consistent M a b c := by
  obtain ⟨N₁, N, hfirst, hsecond, hdirect⟩ := agree_iff.mp h
  constructor
  case first =>
    rintro ⟨rfl, rfl⟩
    cases hfirst
  case second =>
    rintro ⟨rfl, rfl⟩
    cases hsecond
  case direct =>
    rintro ⟨rfl, rfl⟩
    cases hdirect
  case reps =>
    by_cases hab : a = b
    · exact .inr (.inl hab)
    · by_cases hbc : b = c
      · exact .inr (.inr (.inl hbc))
      · refine (or_iff_not_imp_left.mpr fun hT => .inr (.inr ?_))
        by_cases ha : a = .T
        · obtain ⟨hM, hac, hb⟩ := zero_of_from_T hd hfirst hsecond hdirect ha hab hbc
          exact .inr ⟨hM, hac, .inr ⟨ha, hb⟩⟩
        · by_cases hb : b = .T
          · have hc : c ≠ .T := fun hc => hbc (hb.trans hc.symm)
            obtain ⟨hM, hac, ha'⟩ := zero_of_over_T hd hfirst hsecond hdirect hb ha hc
            exact .inr ⟨hM, hac, .inl ⟨ha', hb⟩⟩
          · have hc : c = .T := by
              by_contra hc
              exact hT ⟨ha, hb, hc⟩
            obtain ⟨ha', hb'⟩ := plain_of_to_T hd hfirst hsecond hdirect ha hc hab hbc
            exact .inl ⟨ha', hb', hc⟩

/-- **The way over a third representation** leads where the direct one leads, iff
none of them reads outside the matrix and the representations are without T, or are
converted to the same wrong result. -/
theorem twoport_agree_iff (hd : Divides M a b c) : Agree M a b c ↔ Consistent M a b c :=
  ⟨consistent_of_agree hd, agree_of_consistent hd⟩

theorem twoport_agree_hybrid : Divides !![2, 1; 1, 1] .Z .H .A ∧ Agree !![2, 1; 1, 1] .Z .H .A := by
  have hd : Divides !![2, 1; 1, 1] .Z .H .A := by
    constructor
    case first => simp [denominator]
    case second =>
      rintro N hN
      cases hN
      simp [denominator, exchangeSecond]
    case direct => simp [denominator]
  refine ⟨hd, (twoport_agree_iff hd).mpr ?_⟩
  exact ⟨by decide, by decide, by decide, .inl (by decide)⟩

theorem twoport_not_agree_T : Divides 1 .T .S .T ∧ ¬Agree 1 .T .S .T := by
  constructor
  · constructor
    case first => simp [denominator]
    case second =>
      rintro N hN
      cases hN
      simp [denominator]
    case direct => simp [denominator]
  · rw [agree_iff]
    rintro ⟨N₁, N, hfirst, hsecond, hdirect⟩
    have hN : N = 1 := result_unique hdirect (twoport_self 1 .T)
    have hentry := (S_T_entries hsecond).2
    rw [hN] at hentry
    exact one_ne_zero hentry

end Ways

end Qucs.Ports
