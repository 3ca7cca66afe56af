/-
# Determinants by elimination and by expansion

`math/matrix.cpp`. There are two algorithms for the determinant: the
expansion along the first row, and the elimination with pivots that `det` runs.

* compute new rows and columns: `reduceRow`
* assert (MaxPivot != 0): `none`

The copying loop of `cofactor` leaves out row `u` and column `v`, as `Fin.succAbove`
does. The elimination does not write zeros below the diagonal; what is left there is
not read again (`cleared`).

The elimination keeps the determinant (`Eliminated`), and it stops at the assertion
iff the matrix is singular; but matrices with less than two rows are not
eliminated. So the two agree **for all but the singular matrices of two and more
rows** (`det_eq_detLaplace_iff`).
-/
import Qucs.Lib.Numerals
import Qucs.Lib.Fold
import Qucs.Linear.Lu

namespace Qucs.Linear

open Lib.Fold Lib.InPlace List Matrix
open List (finRange)

variable {K V : Type*} [Field K] {n : ℕ}

/-! ## The algorithms -/

/-- Two rows exchanged. -/
def exchangeRows (r₁ r₂ : Fin n) (b : Matrix (Fin n) (Fin n) K) : Matrix (Fin n) (Fin n) K :=
  b.submatrix (Equiv.swap r₁ r₂) id

/-- The sign of the minor without row `u` and column `v`, with its determinant. -/
def cofactorBy (det : Matrix (Fin n) (Fin n) K → K) (a : Matrix (Fin (n + 1)) (Fin (n + 1)) K)
    (u v : Fin (n + 1)) : K :=
  let z := det (a.submatrix u.succAbove v.succAbove)
  if (u + v : ℕ) % 2 = 1 then -z else z

/-- The expansion along the first row. -/
def detLaplace : {n : ℕ} → Matrix (Fin n) (Fin n) K → K
  | 0, _ => 1
  | 1, a => a 0 0
  | _ + 2, a =>
    (finRange _).foldl (fun res i => res + a 0 i * cofactorBy detLaplace a 0 i) 0

/-- The signed minor. -/
def cofactor : Matrix (Fin (n + 1)) (Fin (n + 1)) K → Fin (n + 1) → Fin (n + 1) → K :=
  cofactorBy detLaplace

structure Pivot (n : ℕ) (V : Type*) where
  maxPivot : V
  pivot : Fin n

variable [Field V] [LinearOrder V] (m : Magnitude K V)

def pivotStep (b : Matrix (Fin n) (Fin n) K) (i : Fin n) (s : Pivot n V) (r : Fin n) : Pivot n V :=
  if m.abs (b r i) > s.maxPivot then ⟨m.abs (b r i), r⟩ else s

/-- Finds the maximum column value for pivoting. -/
def findPivot (b : Matrix (Fin n) (Fin n) K) (i : Fin n) : Pivot n V :=
  ((finRange n).filter (i ≤ ·)).foldl (pivotStep m b i) ⟨0, i⟩

/-- The columns up to `i` are not written. -/
def reduceRow (i : Fin n) (b : Matrix (Fin n) (Fin n) K) (r : Fin n) : Matrix (Fin n) (Fin n) K :=
  let f := b r i / b i i
  b.updateRow r fun c => if i < c then b r c - f * b i c else b r c

def reduceRows (i : Fin n) (b : Matrix (Fin n) (Fin n) K) : Matrix (Fin n) (Fin n) K :=
  ((finRange n).filter (i < ·)).foldl (reduceRow i) b

/-- One round of the loop over the columns, with the sign so far. -/
def gaussColumn (s : K × Matrix (Fin n) (Fin n) K) (i : Fin n) :
    Option (K × Matrix (Fin n) (Fin n) K) :=
  let p := findPivot m s.2 i
  if p.maxPivot = 0 then none
  else
    let s := if i ≠ p.pivot then (-s.1, exchangeRows i p.pivot s.2) else s
    some (s.1, reduceRows i s.2)

/-- By elimination, unless an assertion fails. -/
def detGauss : {n : ℕ} → Matrix (Fin n) (Fin n) K → Option K
  | 0, _ => some 1
  | 1, a => some (a 0 0)
  | _ + 2, a => do
      let s ← (finRange _).foldlM (gaussColumn m) (1, a)
      return (finRange _).foldl (fun res i => res * s.2 i i) s.1

/-- The algorithm that is used. -/
def det : Matrix (Fin n) (Fin n) K → Option K := detGauss m

/-! ## The expansion -/

section Laplace

omit [Field V] [LinearOrder V]

theorem cofactorBy_det (a : Matrix (Fin (n + 1)) (Fin (n + 1)) K) (u v : Fin (n + 1)) :
    cofactorBy Matrix.det a u v =
      (-1) ^ (u + v : ℕ) * (a.submatrix u.succAbove v.succAbove).det := by
  rw [cofactorBy]
  split
  case isTrue hodd => rw [Odd.neg_one_pow (Nat.odd_iff.mpr hodd), neg_one_mul]
  case isFalse heven =>
    rw [Even.neg_one_pow (Nat.even_iff.mpr (by omega)), one_mul]

theorem detLaplace_eq : ∀ {n : ℕ} (a : Matrix (Fin n) (Fin n) K), detLaplace a = a.det := by
  intro n
  induction n with
  | zero =>
    intro a
    rw [Matrix.det_fin_zero, detLaplace]
  | succ n ih =>
    intro a
    cases n with
    | zero => rw [Matrix.det_fin_one, detLaplace]
    | succ n =>
      have hminor : (detLaplace : Matrix (Fin (n + 1)) (Fin (n + 1)) K → K) = Matrix.det :=
        funext fun _ => ih _
      rw [detLaplace, hminor, foldl_add_finRange, zero_add, Matrix.det_succ_row_zero]
      refine Finset.sum_congr rfl fun i _ => ?_
      rw [cofactorBy_det, Fin.val_zero, zero_add, Fin.succAbove_zero]
      ring

theorem cofactor_eq_adjugate (a : Matrix (Fin (n + 1)) (Fin (n + 1)) K) (u v : Fin (n + 1)) :
    cofactor a u v = a.adjugate v u := by
  have hminor : (detLaplace : Matrix (Fin n) (Fin n) K → K) = Matrix.det :=
    funext fun _ => detLaplace_eq _
  rw [cofactor, hminor, cofactorBy_det, Matrix.adjugate_fin_succ_eq_det_submatrix]

end Laplace

/-! ## The pivot -/

section Pivot

variable {m} {b : Matrix (Fin n) (Fin n) K} {i : Fin n}

structure Found (m : Magnitude K V) (b : Matrix (Fin n) (Fin n) K) (i : Fin n)
    (done : List (Fin n)) (s : Pivot n V) : Prop where
  seen : ∀ r ∈ done, m.abs (b r i) ≤ s.maxPivot
  nonneg : 0 ≤ s.maxPivot
  at_pivot : s.maxPivot ≠ 0 → s.pivot ∈ done ∧ m.abs (b s.pivot i) = s.maxPivot

theorem findPivot_found : Found m b i ((finRange n).filter (i ≤ ·)) (findPivot m b i) := by
  refine foldl_rule ⟨fun r hr => (nomatch hr), le_rfl, fun h => absurd rfl h⟩ ?_
  intro done r rest _ h
  rw [pivotStep]
  split
  case isTrue hgt =>
    refine ⟨fun r' hr' => ?_, h.nonneg.trans hgt.le, fun _ => ⟨by simp, rfl⟩⟩
    rcases mem_append.mp hr' with hr' | hr'
    · exact (h.seen r' hr').trans hgt.le
    · rw [mem_singleton.mp hr']
  case isFalse hle =>
    refine ⟨fun r' hr' => ?_, h.nonneg, fun hne => ?_⟩
    · rcases mem_append.mp hr' with hr' | hr'
      · exact h.seen r' hr'
      · rw [mem_singleton.mp hr']
        exact not_lt.mp hle
    · exact ⟨mem_append_left _ (h.at_pivot hne).1, (h.at_pivot hne).2⟩

theorem findPivot_eq_zero (h : (findPivot m b i).maxPivot = 0) {r : Fin n} (hr : i ≤ r) :
    b r i = 0 := by
  have hle : m.abs (b r i) ≤ (findPivot m b i).maxPivot :=
    findPivot_found.seen r (by simpa using hr)
  rw [h] at hle
  by_contra hne
  exact absurd ((m.abs_pos _).mpr hne) (not_lt.mpr hle)

theorem findPivot_ne_zero (h : (findPivot m b i).maxPivot ≠ 0) :
    i ≤ (findPivot m b i).pivot ∧ b (findPivot m b i).pivot i ≠ 0 := by
  obtain ⟨hmem, habs⟩ := findPivot_found.at_pivot h
  refine ⟨by simpa using hmem, (m.abs_pos _).mp ?_⟩
  rw [habs]
  exact lt_of_le_of_ne findPivot_found.nonneg h.symm

end Pivot

/-! ## The elimination -/

section Elimination

omit [Field V] [LinearOrder V]

variable {A b : Matrix (Fin n) (Fin n) K} {i : Fin n}

/-- Zeros below the diagonal in the columns that are done. -/
def cleared (k : ℕ) (b : Matrix (Fin n) (Fin n) K) : Matrix (Fin n) (Fin n) K :=
  Matrix.of fun r c => if (c : ℕ) < k ∧ c < r then 0 else b r c

theorem cleared_of_lt {k : ℕ} {r c : Fin n} (hk : (c : ℕ) < k) (hc : c < r) :
    cleared k b r c = 0 := if_pos ⟨hk, hc⟩

/-- After `k` columns: the matrix so far is A, up to the sign, and the pivots are not
zero. -/
structure Eliminated (A : Matrix (Fin n) (Fin n) K) (k : ℕ) (s : K × Matrix (Fin n) (Fin n) K) :
    Prop where
  det : s.1 * (cleared k s.2).det = A.det
  sign : s.1 ≠ 0
  pivots : ∀ j : Fin n, (j : ℕ) < k → s.2 j j ≠ 0

theorem cleared_exchangeRows {r : Fin n} (hr : i ≤ r) :
    cleared i (exchangeRows i r b) = exchangeRows i r (cleared i b) := by
  have hbelow : ∀ q c, c < i → (c < Equiv.swap i r q ↔ c < q) := by
    intro q c hc
    rcases eq_or_ne q i with rfl | hqi
    · rw [Equiv.swap_apply_left]
      exact iff_of_true (hc.trans_le hr) hc
    · rcases eq_or_ne q r with rfl | hqr
      · rw [Equiv.swap_apply_right]
        exact iff_of_true hc (hc.trans_le hr)
      · rw [Equiv.swap_apply_of_ne_of_ne hqi hqr]
  ext q c
  simp only [cleared, exchangeRows, of_apply, submatrix_apply, id]
  by_cases hc : c < i
  · simp only [hbelow q c hc]
  · simp only [Fin.lt_def] at hc
    simp only [hc, false_and]

theorem Eliminated.exchange {s : K × Matrix (Fin n) (Fin n) K} (h : Eliminated A i s) {r : Fin n}
    (hr : i < r) : Eliminated A i (-s.1, exchangeRows i r s.2) := by
  have hdet : (exchangeRows i r (cleared i s.2)).det = -(cleared i s.2).det := by
    rw [exchangeRows, det_permute, Equiv.Perm.sign_swap hr.ne]
    simp
  constructor
  case det =>
    rw [cleared_exchangeRows hr.le, hdet, neg_mul_neg]
    exact h.det
  case sign => exact neg_ne_zero.mpr h.sign
  case pivots =>
    intro j hj
    have hji : j < i := hj
    have hrow := Equiv.swap_apply_of_ne_of_ne hji.ne (hji.trans hr).ne
    simpa [exchangeRows, hrow] using h.pivots j hj

theorem foldl_reduceRow {l : List (Fin n)} (hl : l.Nodup) (hi : i ∉ l) (r c : Fin n) :
    l.foldl (reduceRow i) b r c =
      if r ∈ l ∧ i < c then b r c - b r i / b i i * b i c else b r c := by
  induction l generalizing b with
  | nil => simp
  | cons q l ih =>
    obtain ⟨hq, hl⟩ := nodup_cons.mp hl
    obtain ⟨hiq, hi⟩ : i ≠ q ∧ i ∉ l := by simpa using hi
    rw [foldl_cons, ih hl hi]
    have hrow : reduceRow i b q i = b i := updateRow_ne hiq
    rcases eq_or_ne r q with rfl | hne
    · simp [hq, reduceRow]
    · have hother : reduceRow i b q r = b r := updateRow_ne hne
      simp [hne, hrow, hother]

theorem reduceRows_apply (r c : Fin n) : reduceRows i b r c =
    if i < r ∧ i < c then b r c - b r i / b i i * b i c else b r c := by
  have hnodup : ((finRange n).filter (i < ·)).Nodup := (nodup_finRange n).filter _
  rw [reduceRows, foldl_reduceRow hnodup (by simp)]
  simp

/-- Multiples of row `i` are taken away, if the zeros below the diagonal are seen. -/
theorem det_cleared_reduceRows (hpivot : b i i ≠ 0) :
    (cleared (i + 1) (reduceRows i b)).det = (cleared i b).det := by
  refine det_eq_of_forall_row_eq_smul_add_const
    (fun r => if i < r then -(b r i / b i i) else 0) i (if_neg (lt_irrefl i)) fun r c => ?_
  simp only [cleared, of_apply, reduceRows_apply]
  rcases lt_trichotomy c i with hc | rfl | hc
  case inl =>
    have hci : (c : ℕ) < i := hc
    simp [hci, hc, hci.trans (Nat.lt_succ_self _), hc.not_gt]
  case inr.inl =>
    rcases lt_or_ge c r with hr | hr
    · simp [hr, hpivot]
    · simp [hr.not_gt]
  case inr.inr =>
    have hic : (i : ℕ) < c := hc
    have hdone : ¬(c : ℕ) < i + 1 := by omega
    by_cases hr : i < r
    · simp only [hdone, hic.not_gt, hr, hc, false_and, true_and, if_true, if_false]
      ring
    · simp [hdone, hic.not_gt, hr]

theorem Eliminated.reduceRows {s : K × Matrix (Fin n) (Fin n) K} (h : Eliminated A i s)
    (hpivot : s.2 i i ≠ 0) : Eliminated A (i + 1) (s.1, Linear.reduceRows i s.2) := by
  constructor
  case det =>
    rw [det_cleared_reduceRows hpivot]
    exact h.det
  case sign => exact h.sign
  case pivots =>
    intro j hj
    have hle : j ≤ i := Fin.le_def.mpr (by omega)
    have hrow : Linear.reduceRows i s.2 j j = s.2 j j := by
      rw [reduceRows_apply, if_neg fun hlt => hle.not_gt hlt.1]
    dsimp only
    rw [hrow]
    rcases hle.lt_or_eq with hlt | rfl
    · exact h.pivots j hlt
    · exact hpivot

/-- Without a pivot the columns up to `i` are dependent. -/
theorem det_cleared_eq_zero (hcol : ∀ r, i ≤ r → b r i = 0) : (cleared i b).det = 0 := by
  rw [twoBlockTriangular_det (cleared i b) (· ≤ i)]
  · refine mul_eq_zero_of_left ?_ _
    rw [det_of_isUpperTriangular]
    · refine Finset.prod_eq_zero (Finset.mem_univ ⟨i, le_rfl⟩) ?_
      simp [toSquareBlockProp, cleared, hcol]
    · rintro ⟨r, hr⟩ ⟨c, hc⟩ (hlt : c < r)
      exact cleared_of_lt (hlt.trans_le hr) hlt
  · intro r hr c hc
    rw [not_le] at hr
    rcases hc.lt_or_eq with hc | rfl
    · exact cleared_of_lt hc (hc.trans hr)
    · simp [cleared, hcol r hr.le]

theorem det_cleared_last (b : Matrix (Fin n) (Fin n) K) : (cleared n b).det = ∏ i, b i i := by
  rw [det_of_isUpperTriangular]
  · simp [cleared]
  · intro r c hlt
    exact cleared_of_lt c.isLt hlt

end Elimination

section Rounds

variable {m} {A : Matrix (Fin n) (Fin n) K} {i : Fin n} {s s' : K × Matrix (Fin n) (Fin n) K}

/-- **A round** keeps the determinant. -/
theorem Eliminated.column (h : Eliminated A i s) (hs : gaussColumn m s i = some s') :
    Eliminated A (i + 1) s' := by
  rw [gaussColumn] at hs
  split at hs
  case isTrue => cases hs
  case isFalse hpivot =>
    obtain ⟨hle, hne⟩ := findPivot_ne_zero hpivot
    cases hs
    split
    case isTrue hswap =>
      refine (h.exchange (lt_of_le_of_ne hle hswap)).reduceRows ?_
      simpa [exchangeRows] using hne
    case isFalse hsame =>
      rw [← not_ne_iff.mp hsame] at hne
      exact h.reduceRows hne

theorem Eliminated.stop (h : Eliminated A i s) (hs : gaussColumn m s i = none) : A.det = 0 := by
  rw [gaussColumn] at hs
  split at hs
  case isTrue hpivot =>
    rw [← h.det, det_cleared_eq_zero fun r hr => findPivot_eq_zero hpivot hr, mul_zero]
  case isFalse => cases hs

theorem Eliminated.det_ne_zero (h : Eliminated A n s) : A.det ≠ 0 := by
  rw [← h.det, det_cleared_last]
  exact mul_ne_zero h.sign (Finset.prod_ne_zero_iff.mpr fun i _ => h.pivots i i.isLt)

/-- The elimination goes through, or the matrix is singular. -/
theorem gaussColumns (m : Magnitude K V) (A : Matrix (Fin n) (Fin n) K) :
    (∃ s, (finRange n).foldlM (gaussColumn m) (1, A) = some s ∧ Eliminated A n s) ∨
      (finRange n).foldlM (gaussColumn m) (1, A) = none ∧ A.det = 0 := by
  refine foldlM_finRange ?_ (fun i s s' h hs => h.column hs) (fun i s h hs => h.stop hs)
  constructor
  case det =>
    have hnone : cleared 0 A = A := by
      ext r c
      simp [cleared]
    rw [hnone, one_mul]
  case sign => exact one_ne_zero
  case pivots => exact fun j hj => absurd hj (Nat.not_lt_zero j)

end Rounds

/-! ## Both together -/

theorem detGauss_of_ne_zero (hn : 2 ≤ n) {A : Matrix (Fin n) (Fin n) K} (hA : A.det ≠ 0) :
    detGauss m A = some A.det := by
  obtain ⟨n, rfl⟩ := Nat.exists_eq_add_of_le' hn
  rw [detGauss]
  rcases gaussColumns m A with ⟨s, hs, h⟩ | ⟨_, hzero⟩
  · rw [hs, ← h.det, det_cleared_last, ← foldl_mul_finRange]
    rfl
  · exact absurd hzero hA

theorem detGauss_of_eq_zero (hn : 2 ≤ n) {A : Matrix (Fin n) (Fin n) K} (hA : A.det = 0) :
    detGauss m A = none := by
  obtain ⟨n, rfl⟩ := Nat.exists_eq_add_of_le' hn
  rw [detGauss]
  rcases gaussColumns m A with ⟨s, _, h⟩ | ⟨hs, _⟩
  · exact absurd hA h.det_ne_zero
  · rw [hs]
    rfl

/-- **The two determinants agree iff** the matrix is nonsingular or has less
than two rows. -/
theorem det_eq_detLaplace_iff (A : Matrix (Fin n) (Fin n) K) :
    det m A = some (detLaplace A) ↔ n ≤ 1 ∨ IsUnit A := by
  rw [detLaplace_eq, det, isUnit_iff_isUnit_det, isUnit_iff_ne_zero]
  match n, A with
  | 0, A => simp [detGauss]
  | 1, A => simp [detGauss]
  | n + 2, A =>
    have hn := Nat.le_add_left 2 n
    by_cases hA : A.det = 0
    · simp [detGauss_of_eq_zero m hn hA, hA]
    · simp [detGauss_of_ne_zero m hn hA, hA]

/-- The complex numbers by their modulus. -/
noncomputable def modulus : Magnitude ℂ ℝ where
  abs z := ‖z‖
  abs_pos z := norm_pos_iff
  tiny := 1 / 10 ^ 30
  tiny_pos := by norm_num
  resistance := 1 / 10 ^ 30

/-- The assertion fails for two equal rows. -/
theorem det_equal_rows :
    det modulus !![1, 2; 1, 2] = none ∧ detLaplace !![(1 : ℂ), 2; 1, 2] = 0 := by
  have hdet : (!![1, 2; 1, 2] : Matrix (Fin 2) (Fin 2) ℂ).det = 0 := by
    rw [det_fin_two_of, mul_comm, sub_self]
  exact ⟨detGauss_of_eq_zero modulus le_rfl hdet, (detLaplace_eq _).trans hdet⟩

end Qucs.Linear
