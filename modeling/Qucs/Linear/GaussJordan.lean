/-
# Inverse matrices

`math/matrix.cpp`. `inverse` runs the elimination of Gauss and Jordan;
the formula with the cofactors is kept beside it.

* b, e: `Work.b`, `Work.e`
* assert (...): `none`

What is done to the rows of `b` is done to those of `e`, so that `b = e * a` stays
true (`Reached`); and the columns of `b` become those of the unit matrix one by one.
There is no pivot only if the column depends on those before it
(`Reached.det_eq_zero`).
-/
import Qucs.Linear.Determinant

namespace Qucs.Linear

open Lib.Fold Matrix

variable {K V : Type*} [Field K] {n : ℕ}

/-! ## The algorithms -/

/-- The matrix that becomes the unit matrix, and the one that becomes the inverse. -/
structure Work (n : ℕ) (K : Type*) where
  b : Matrix (Fin n) (Fin n) K
  e : Matrix (Fin n) (Fin n) K

namespace Work

variable (w : Work n K) (i : Fin n)

/-- Exchanges rows if necessary. -/
def exchange (r : Fin n) : Work n K := ⟨exchangeRows i r w.b, exchangeRows i r w.e⟩

/-- Computes the current row. -/
def scale : Work n K :=
  let f := w.b i i
  { b := w.b.updateRow i fun c => w.b i c / f
    e := w.e.updateRow i fun c => w.e i c / f }

def clearRow (r : Fin n) : Work n K :=
  if r ≠ i then
    let f := w.b r i
    { b := w.b.updateRow r fun c => w.b r c - f * w.b i c
      e := w.e.updateRow r fun c => w.e r c - f * w.e i c }
  else w

/-- Computes new rows and columns. -/
def clear : Work n K := (List.finRange n).foldl (fun w r => w.clearRow i r) w

end Work

variable [Field V] [LinearOrder V] (m : Magnitude K V)

def jordanColumn (w : Work n K) (i : Fin n) : Option (Work n K) :=
  let p := findPivot m w.b i
  if p.maxPivot = 0 then none
  else
    let w := if i ≠ p.pivot then w.exchange i p.pivot else w
    some ((w.scale i).clear i)

/-- By elimination, unless an assertion fails. -/
def inverseGaussJordan (a : Matrix (Fin n) (Fin n) K) : Option (Matrix (Fin n) (Fin n) K) := do
  let w ← (List.finRange n).foldlM (jordanColumn m) ⟨a, 1⟩
  return w.e

/-- The algorithm that is used. -/
def inverse : Matrix (Fin n) (Fin n) K → Option (Matrix (Fin n) (Fin n) K) := inverseGaussJordan m

/-- By cofactors, unless the determinant is zero. -/
def inverseLaplace : {n : ℕ} → Matrix (Fin n) (Fin n) K → Option (Matrix (Fin n) (Fin n) K)
  | 0, a => if m.abs (detLaplace a) ≠ 0 then some a else none
  | _ + 1, a =>
    let d := detLaplace a
    if m.abs d ≠ 0 then some (Matrix.of fun r c => cofactor a c r / d) else none

/-! ## Row operations -/

section Rows

omit [Field V] [LinearOrder V]

variable {A : Matrix (Fin n) (Fin n) K} {w : Work n K} {i : Fin n}

theorem foldl_clearRow {l : List (Fin n)} (hl : l.Nodup) (r : Fin n) :
    (l.foldl (fun w r => w.clearRow i r) w).b r =
        (if r ∈ l ∧ r ≠ i then fun c => w.b r c - w.b r i * w.b i c else w.b r) ∧
      (l.foldl (fun w r => w.clearRow i r) w).e r =
        if r ∈ l ∧ r ≠ i then fun c => w.e r c - w.b r i * w.e i c else w.e r := by
  induction l generalizing w with
  | nil => simp
  | cons q l ih =>
    obtain ⟨hq, hl⟩ := List.nodup_cons.mp hl
    rw [List.foldl_cons, (ih hl).1, (ih hl).2, Work.clearRow]
    by_cases hqi : q = i
    · subst hqi
      by_cases hr : r = q <;> simp [hr]
    · have hne : i ≠ q := Ne.symm hqi
      rcases eq_or_ne r q with rfl | hr
      · simp [hqi, hq]
      · simp [hqi, hr, hne]

/-- The column `i` is cleared in all other rows. -/
theorem Work.clear_apply (w : Work n K) (i r c : Fin n) :
    (w.clear i).b r c = (if r ≠ i then w.b r c - w.b r i * w.b i c else w.b r c) ∧
      (w.clear i).e r c = if r ≠ i then w.e r c - w.b r i * w.e i c else w.e r c := by
  obtain ⟨hb, he⟩ := foldl_clearRow (w := w) (List.nodup_finRange n) r
  rw [Work.clear, hb, he]
  by_cases hr : r = i
  · simp [hr]
  · simp [hr]

/-- After `k` columns: `b` is `e * A`, as singular as A, and has `k` columns of the
unit matrix. -/
structure Reached (A : Matrix (Fin n) (Fin n) K) (k : ℕ) (w : Work n K) : Prop where
  product : w.e * A = w.b
  singular : w.b.det = 0 ↔ A.det = 0
  unit : ∀ r c : Fin n, (c : ℕ) < k → w.b r c = if r = c then 1 else 0

theorem Reached.exchange (h : Reached A i w) {r : Fin n} (hr : i < r) :
    Reached A i (w.exchange i r) := by
  constructor
  case product =>
    rw [Work.exchange, ← h.product]
    ext q c
    simp [exchangeRows, mul_apply]
  case singular =>
    rw [← h.singular, Work.exchange, exchangeRows, det_permute, Equiv.Perm.sign_swap hr.ne]
    simp
  case unit =>
    intro q c hc
    have hci : c < i := hc
    have hfix := Equiv.swap_apply_of_ne_of_ne hci.ne (hci.trans hr).ne
    have hiff : Equiv.swap i r q = c ↔ q = c := by rw [Equiv.swap_apply_eq_iff, hfix]
    simp [Work.exchange, exchangeRows, h.unit _ c hc, hiff]

theorem Reached.scale (h : Reached A i w) (hpivot : w.b i i ≠ 0) :
    Reached A i (w.scale i) ∧ (w.scale i).b i i = 1 := by
  refine ⟨⟨?_, ?_, ?_⟩, by simp [Work.scale, hpivot]⟩
  case refine_1 =>
    rw [Work.scale, ← h.product]
    ext q c
    rcases eq_or_ne q i with rfl | hq
    · simp [mul_apply, div_mul_eq_mul_div, Finset.sum_div]
    · simp [mul_apply, hq]
  case refine_2 =>
    have hrow : (fun c => w.b i c / w.b i i) = (w.b i i)⁻¹ • w.b i := by
      funext c
      rw [Pi.smul_apply, smul_eq_mul, div_eq_inv_mul]
    rw [← h.singular, Work.scale, hrow, det_updateRow_smul, updateRow_eq_self]
    simp [hpivot]
  case refine_3 =>
    intro q c hc
    have hci : c < i := hc
    rcases eq_or_ne q i with rfl | hq
    · simp [Work.scale, h.unit q c hc, hci.ne']
    · simp [Work.scale, hq, h.unit q c hc]

theorem Reached.clear (h : Reached A i w) (hpivot : w.b i i = 1) :
    Reached A (i + 1) (w.clear i) := by
  constructor
  case product =>
    ext q c
    have hrow : ∀ q c, ∑ j, w.e q j * A j c = w.b q c := by
      intro q c
      rw [← h.product, mul_apply]
    rw [mul_apply, (w.clear_apply i q c).1]
    simp only [(w.clear_apply i q _).2]
    split
    · simp only [sub_mul, mul_assoc, Finset.sum_sub_distrib, ← Finset.mul_sum, hrow]
    · exact hrow q c
  case singular =>
    rw [← h.singular]
    have hdet : (w.clear i).b.det = w.b.det := by
      refine det_eq_of_forall_row_eq_smul_add_const
        (fun r => if r ≠ i then -w.b r i else 0) i (by simp) fun r c => ?_
      rw [(w.clear_apply i r c).1]
      split
      · ring
      · rw [zero_mul, add_zero]
    rw [hdet]
  case unit =>
    intro q c hc
    rw [(w.clear_apply i q c).1]
    rcases (Nat.lt_succ_iff.mp hc).lt_or_eq with hlt | heq
    · have hci : c < i := hlt
      rw [h.unit i c hlt, if_neg hci.ne', mul_zero, sub_zero, ite_self, h.unit q c hlt]
    · obtain rfl := Fin.ext heq
      by_cases hq : q = c
      · simp [hq, hpivot]
      · simp [hq, hpivot]

theorem Reached.det_eq_zero (h : Reached A i w) (hcol : ∀ r, i ≤ r → w.b r i = 0) : A.det = 0 := by
  have hcleared : cleared i w.b = w.b := by
    ext r c
    rw [cleared, of_apply]
    split
    case isTrue hbelow => rw [h.unit r c hbelow.1, if_neg hbelow.2.ne']
    case isFalse => rfl
  rw [← h.singular, ← hcleared]
  exact det_cleared_eq_zero hcol

end Rows

/-! ## The inverse -/

section Inverse

variable {m} {A : Matrix (Fin n) (Fin n) K} {w w' : Work n K} {i : Fin n}

theorem Reached.column (h : Reached A i w) (hw : jordanColumn m w i = some w') :
    Reached A (i + 1) w' := by
  rw [jordanColumn] at hw
  split at hw
  case isTrue => cases hw
  case isFalse hpivot =>
    obtain ⟨hle, hne⟩ := findPivot_ne_zero hpivot
    cases hw
    split
    case isTrue hswap =>
      have hex := h.exchange (lt_of_le_of_ne hle hswap)
      obtain ⟨hscaled, hone⟩ := hex.scale (by simpa [Work.exchange, exchangeRows] using hne)
      exact hscaled.clear hone
    case isFalse hsame =>
      rw [← not_ne_iff.mp hsame] at hne
      obtain ⟨hscaled, hone⟩ := h.scale hne
      exact hscaled.clear hone

theorem Reached.stop (h : Reached A i w) (hw : jordanColumn m w i = none) : A.det = 0 := by
  rw [jordanColumn] at hw
  split at hw
  case isTrue hpivot => exact h.det_eq_zero fun r hr => findPivot_eq_zero hpivot hr
  case isFalse => cases hw

theorem Reached.inverse (h : Reached A n w) : w.e * A = 1 := by
  rw [h.product]
  ext r c
  rw [h.unit r c c.isLt, one_apply]

variable (m : Magnitude K V)

/-- The elimination goes through to the inverse, or the matrix is singular. -/
theorem inverseGaussJordan_cases (A : Matrix (Fin n) (Fin n) K) :
    (∃ E, inverseGaussJordan m A = some E ∧ E * A = 1) ∨
      inverseGaussJordan m A = none ∧ A.det = 0 := by
  have hstart : Reached A 0 ⟨A, 1⟩ := by
    constructor
    case product => exact one_mul A
    case singular => exact Iff.rfl
    case unit => exact fun r c hc => absurd hc (Nat.not_lt_zero c)
  rw [inverseGaussJordan]
  rcases foldlM_finRange hstart (fun i w w' h hw => h.column (m := m) hw)
    (fun i w h hw => h.stop hw) with ⟨w, hw, h⟩ | ⟨hw, hzero⟩
  · rw [hw]
    exact .inl ⟨w.e, rfl, h.inverse⟩
  · rw [hw]
    exact .inr ⟨rfl, hzero⟩

/-- **What `inverse` computes.** -/
theorem inverse_eq_some_iff {A E : Matrix (Fin n) (Fin n) K} :
    inverse m A = some E ↔ E * A = 1 := by
  rw [inverse]
  rcases inverseGaussJordan_cases m A with ⟨E', hE', hinv⟩ | ⟨hnone, hzero⟩
  · rw [hE', Option.some_inj]
    constructor
    · rintro rfl
      exact hinv
    · intro hE
      rw [← inv_eq_left_inv hinv, inv_eq_left_inv hE]
  · rw [hnone]
    refine iff_of_false (fun h => nomatch h) fun hE => ?_
    have hdet := congrArg Matrix.det hE
    rw [det_mul, hzero, mul_zero, det_one] at hdet
    exact zero_ne_one hdet

theorem exists_inverse_of_det (hA : A.det ≠ 0) : ∃ E, inverse m A = some E := by
  rcases inverseGaussJordan_cases m A with ⟨E, hE, _⟩ | ⟨_, hzero⟩
  · exact ⟨E, hE⟩
  · exact absurd hzero hA

theorem exists_inverse (hA : ∀ u, A.mulVec u = 0 → u = 0) :
    ∃ E, inverse m A = some E := by
  refine exists_inverse_of_det m fun hzero => ?_
  obtain ⟨u, hu, hAu⟩ := exists_mulVec_eq_zero_iff.mpr hzero
  exact hu (hA u hAu)

theorem inverseLaplace_eq {A : Matrix (Fin n) (Fin n) K} (hA : A.det ≠ 0) :
    inverseLaplace m A = some A⁻¹ := by
  have habs : m.abs (detLaplace A) ≠ 0 := by
    rw [detLaplace_eq]
    exact ((m.abs_pos _).mpr hA).ne'
  match n, A with
  | 0, A =>
    rw [inverseLaplace, if_pos habs]
    exact congrArg some (Subsingleton.elim _ _)
  | n + 1, A =>
    rw [inverseLaplace, if_pos habs, Option.some_inj, inv_def]
    ext r c
    rw [Matrix.of_apply, cofactor_eq_adjugate, detLaplace_eq, Matrix.smul_apply, smul_eq_mul,
      Ring.inverse_eq_inv', div_eq_inv_mul]

/-- **Gauss-Jordan inversion**: a nonsingular matrix has a pivot in every column, and the
result is its inverse on both sides and that of the cofactors. -/
theorem inverseGaussJordan_exact (A : Matrix (Fin n) (Fin n) K)
    (hA : A.det ≠ 0) : ∃ E, inverseGaussJordan m A = some E ∧ A * E = 1 ∧ E * A = 1 ∧
      inverseLaplace m A = some E := by
  rcases inverseGaussJordan_cases m A with ⟨E, hE, hinv⟩ | ⟨_, hzero⟩
  · refine ⟨E, hE, mul_eq_one_comm.mp hinv, hinv, ?_⟩
    rw [inverseLaplace_eq m hA, inv_eq_left_inv hinv]
  · exact absurd hzero hA

theorem inverseGaussJordan_exchange :
    (!![0, 1; Complex.I, 1] : Matrix (Fin 2) (Fin 2) ℂ).det ≠ 0 ∧
      ∃ E, inverseGaussJordan modulus !![0, 1; Complex.I, 1] = some E ∧
        !![0, 1; Complex.I, 1] * E = 1 ∧ E * !![0, 1; Complex.I, 1] = 1 ∧
        inverseLaplace modulus !![0, 1; Complex.I, 1] = some E := by
  have hdet : (!![0, 1; Complex.I, 1] : Matrix (Fin 2) (Fin 2) ℂ).det ≠ 0 := by
    simp [det_fin_two_of]
  exact ⟨hdet, inverseGaussJordan_exact modulus _ hdet⟩

end Inverse

end Qucs.Linear
