/-
# What `solve_qr` solves

The reflections make the columns of the matrix, in the order of `cMap`, upper
triangular. The substitution reflects the right-hand side too and writes the
solution through `cMap`; it is right iff no diagonal entry of R is
taken for zero (`qrSolution_iff`). A nonsingular matrix may have such an entry:
the test compares with the precision, not with zero (`solveQr_tiny_pivot`).
When every column is farther than that from the span of the others, there is
none (`solveQr_exact`).
-/
import Qucs.Linear.Lu
import Qucs.Linear.QrFactors

namespace Qucs.Linear

open Lib.InPlace Lib.Mirrors Lib.Triangular Finset
open Finset (range Ico)

variable {tiny ε : ℝ} {N n : ℕ} {A₀ : ℕ × ℕ → ℝ} {s : Qr ℝ}

/-! ## The triangular system -/

def Qr.upper (s : Qr ℝ) (k j : ℕ) : ℝ := if j < k then 0 else s.A (k, j)

theorem Reduced.image_eq (h : Reduced N A₀ N s) {j k : ℕ} (hj : j < N) (hk : k < N) :
    mirrors N (house N s.A) s.T N (sorted A₀ s.cMap j) k = s.upper k j :=
  (h.image j hj k hk).trans (by simp only [hj, true_and, Qr.upper])

theorem Reduced.sum_cMap {c : ℕ} (h : Reduced N A₀ c s) (f : ℕ → ℝ) :
    ∑ j ∈ range N, f (s.cMap j) = ∑ j ∈ range N, f j := by
  have hcoe := coe_range N
  refine sum_nbij s.cMap (fun j hj => ?_) ?_ ?_ fun _ _ => rfl
  · exact mem_range.mpr (h.perm.mapsTo (mem_range.mp hj))
  · rw [hcoe]
    exact h.perm.injOn
  · rw [hcoe]
    exact h.perm.surjOn

theorem Reduced.cMap_lt {c j : ℕ} (h : Reduced N A₀ c s) (hj : j < N) : s.cMap j < N :=
  h.perm.mapsTo hj

theorem reflectColumn_eq {c : ℕ} (hc : c < N) (B : ℕ → ℝ) :
    reflectColumn N s B c = mirror N (house N s.A c) (s.T c) B := by
  rw [reflectColumn]
  split
  case isTrue => exact reflect_eq s.A hc (s.T c) B
  case isFalse hT => rw [not_not.mp hT, mirror_zero, LinearMap.id_apply]

theorem foldl_reflectColumn (B : ℕ → ℝ) :
    (List.range N).foldl (reflectColumn N s) B = mirrors N (house N s.A) s.T N B := by
  rw [← foldl_mirror]
  exact List.foldl_ext _ _ _ fun B c hc => reflectColumn_eq (List.mem_range.mp hc) B

theorem foldl_reverse_reflectColumn (B : ℕ → ℝ) :
    (List.range N).reverse.foldl (reflectColumn N s) B = mirrorsBack N (house N s.A) s.T N B := by
  rw [← foldl_reverse_mirror]
  exact List.foldl_ext _ _ _ fun B c hc =>
    reflectColumn_eq (List.mem_range.mp (List.mem_reverse.mp hc)) B

theorem mul_divideAbove {f d : ℝ} (hε : 0 ≤ ε) (hd : ε < |d|) :
    d * divideAbove (reals tiny ε) f d = f := by
  have hquot : divideAbove (reals tiny ε) f d = f / d := if_pos hd
  rw [hquot, mul_div_cancel₀ _ (abs_pos.mp (hε.trans_lt hd))]

theorem divideAbove_of_le {f d : ℝ} (hd : |d| ≤ ε) : divideAbove (reals tiny ε) f d = 0 :=
  if_neg (not_lt.mpr hd)

theorem eq_zero_of_dot_self {x : ℕ → ℝ} (h : dot N x x = 0) {k : ℕ} (hk : k < N) : x k = 0 := by
  have hall := (sum_eq_zero_iff_of_nonneg fun i _ => mul_self_nonneg (x i)).mp h
  exact mul_self_eq_zero.mp (hall k (mem_range.mpr hk))

/-! ## `solve_qr` -/

variable (tiny) in
/-- The system is solved if no diagonal entry is taken for zero. -/
theorem Reduced.substitute (h : Reduced N A₀ N s) (hε : 0 ≤ ε)
    (hdiag : ∀ r < N, ε < |s.A (r, r)|) (B X : ℕ → ℝ) {i : ℕ} (hi : i < N) :
    ∑ j ∈ range N, A₀ (i, j) * substituteQrHouseholder (reals tiny ε) N s B X j = B i := by
  have hback : ∀ k < N, ∑ j ∈ range N, s.upper k j *
      substituteQrHouseholder (reals tiny ε) N s B X (s.cMap j) =
        mirrors N (house N s.A) s.T N B k := by
    intro k hk
    rw [substituteQrHouseholder, foldl_reflectColumn]
    refine backward_solves s.cMap (fun i j hj => if_pos hj) (fun i hi j hj => h.perm.injOn hi hj)
      (fun r hr z _ => ?_) hk
    have hself : s.upper r r = s.A (r, r) := if_neg (lt_irrefl r)
    rw [hself, mul_divideAbove hε (hdiag r hr), foldl_sub_range', Ico_add_sub]
    congr 1
    refine sum_congr rfl fun j hj => ?_
    rw [Qr.upper, if_neg (by have := (mem_Ico.mp hj).1; omega)]
  generalize substituteQrHouseholder (reals tiny ε) N s B X = x at hback ⊢
  have himage : ∀ k < N, mirrors N (house N s.A) s.T N
      (∑ j ∈ range N, x (s.cMap j) • sorted A₀ s.cMap j - B) k = 0 := by
    intro k hk
    rw [map_sub, map_sum, Pi.sub_apply, Finset.sum_apply, sub_eq_zero, ← hback k hk]
    refine sum_congr rfl fun j hj => ?_
    rw [map_smul, Pi.smul_apply, smul_eq_mul, h.image_eq (mem_range.mp hj) hk, mul_comm]
  have hdot : dot N (∑ j ∈ range N, x (s.cMap j) • sorted A₀ s.cMap j - B)
      (∑ j ∈ range N, x (s.cMap j) • sorted A₀ s.cMap j - B) = 0 := by
    rw [← dot_mirrors h.isMirror]
    refine sum_eq_zero fun k hk => ?_
    rw [himage k (mem_range.mp hk), zero_mul]
  have heq := eq_zero_of_dot_self hdot hi
  rw [Pi.sub_apply, Finset.sum_apply, sub_eq_zero] at heq
  rw [← heq, ← h.sum_cMap fun j => A₀ (i, j) * x j]
  exact sum_congr rfl fun j _ => mul_comm _ _

/-- An unknown whose diagonal entry is taken for zero is set to zero. -/
theorem Reduced.substitute_eq_zero (h : Reduced N A₀ N s) {r : ℕ} (hr : r < N)
    (hle : |s.A (r, r)| ≤ ε) (B X : ℕ → ℝ) :
    substituteQrHouseholder (reals tiny ε) N s B X (s.cMap r) = 0 := by
  obtain ⟨z, hz, -⟩ := sweep_reverse s.cMap _ X (fun i hi j hj => h.perm.injOn hi hj) hr
  exact hz.trans (divideAbove_of_le hle)

variable {A : Matrix (Fin n) (Fin n) ℝ}

theorem inverts {solve : (Fin n → ℝ) → Fin n → ℝ}
    (h : ∀ b, A.mulVec (solve b) = b) (v : Fin n → ℝ) : solve (A.mulVec v) = v := by
  have hsurj : Function.Surjective A.mulVec := fun b => ⟨solve b, h b⟩
  have hinj := Matrix.mulVec_injective_iff_isUnit.mpr (Matrix.mulVec_surjective_iff_isUnit.mp hsurj)
  exact hinj (h _)

/-- The result of `solve_qr` for a square matrix. -/
noncomputable def qrSolution (tiny ε : ℝ) (A : Matrix (Fin n) (Fin n) ℝ) (x : ℕ → ℝ) (b : Fin n → ℝ)
    (i : Fin n) : ℝ := solveQr (reals tiny ε) n (cells A) (entries b) x i

noncomputable def qrDiagonal (tiny ε : ℝ) (A : Matrix (Fin n) (Fin n) ℝ) (r : Fin n) : ℝ :=
  (factorizeQrHouseholder (reals tiny ε) n (cells A)).A (r, r)

theorem qrSolution_iff (hε : 0 ≤ ε) (A : Matrix (Fin n) (Fin n) ℝ) (x : ℕ → ℝ) :
    (∀ b, A.mulVec (qrSolution tiny ε A x b) = b) ↔ ∀ r, ε < |qrDiagonal tiny ε A r| := by
  have hreduced : Reduced n (cells A) n (factorizeQrHouseholder (reals tiny ε) n (cells A)) :=
    stage_reduced _ le_rfl
  refine ⟨fun hsolve r => ?_, fun hdiag b => ?_⟩
  · by_contra hle
    let unknown : Fin n := ⟨_, hreduced.cMap_lt r.isLt⟩
    have hone := congrFun (inverts hsolve (Pi.single unknown 1)) unknown
    rw [Pi.single_eq_same] at hone
    exact zero_ne_one ((hreduced.substitute_eq_zero r.isLt (not_lt.mp hle) _ x).symm.trans hone)
  · funext i
    have hrow := hreduced.substitute tiny hε (fun r hr => hdiag ⟨r, hr⟩) (entries b) x i.isLt
    rw [sum_cells, entries_apply] at hrow
    exact hrow

def column (A : Matrix (Fin n) (Fin n) ℝ) (j : Fin n) : EuclideanSpace ℝ (Fin n) :=
  WithLp.toLp 2 fun i => A i j

theorem vec_sorted {c j : ℕ} (h : Reduced n (cells A) c s)
    (hj : j < n) : vec n (sorted (cells A) s.cMap j) = column A ⟨s.cMap j, h.cMap_lt hj⟩ := by
  ext i
  exact cells_apply A i ⟨s.cMap j, h.cMap_lt hj⟩

/-- How far a column is from the span of the others. -/
noncomputable def columnGap (A : Matrix (Fin n) (Fin n) ℝ) (j : Fin n) : ℝ :=
  Metric.infDist (column A j) (Submodule.span ℝ (column A '' {j}ᶜ))

/-- The diagonal of R is above every bound that the gaps are above. -/
theorem qrDiagonal_gt (hε : 0 ≤ ε) (hgap : ∀ j, ε < columnGap A j)
    (r : Fin n) : ε < |qrDiagonal tiny ε A r| := by
  have hreduced : Reduced n (cells A) n (factorizeQrHouseholder (reals tiny ε) n (cells A)) :=
    stage_reduced _ le_rfl
  obtain ⟨r, hr⟩ := r
  induction r using Nat.strong_induction_on with
  | _ r ih =>
    rw [qrDiagonal, ← hreduced.diag_eq hr hr fun i hi =>
      abs_pos.mp (hε.trans_lt (ih i hi (hi.trans hr)))]
    refine (hgap ⟨_, hreduced.cMap_lt hr⟩).trans_le ?_
    rw [columnGap, gap, vec_sorted hreduced hr]
    refine Metric.infDist_le_infDist_of_subset (Submodule.span_mono ?_) ⟨0, Submodule.zero_mem _⟩
    rintro _ ⟨i, hi, rfl⟩
    have hir : i < r := hi
    refine ⟨⟨_, hreduced.cMap_lt (hir.trans hr)⟩, ?_, (vec_sorted hreduced (hir.trans hr)).symm⟩
    intro heq
    exact hir.ne (hreduced.perm.injOn (hir.trans hr) hr (Fin.mk.inj heq))

/-- **`solve_qr` solves** whenever every column is farther from the span of the
others than the precision; in general iff R has a diagonal above it. -/
theorem solveQr_exact (tiny : ℝ) (hε : 0 ≤ ε) (A : Matrix (Fin n) (Fin n) ℝ) (x : ℕ → ℝ) :
    ((∀ j, ε < columnGap A j) → ∀ b, A.mulVec (qrSolution tiny ε A x b) = b) ∧
      ((∀ b, A.mulVec (qrSolution tiny ε A x b) = b) ↔ ∀ r, ε < |qrDiagonal tiny ε A r|) :=
  ⟨fun hgap => (qrSolution_iff hε A x).mpr (qrDiagonal_gt hε hgap), qrSolution_iff hε A x⟩

theorem columnGap_diagonal (d : Fin n → ℝ) (j : Fin n) :
    |d j| ≤ columnGap (Matrix.diagonal d) j := by
  refine (le_of_eq ?_).trans (le_infDist_span (i := j) ?_ _)
  · rw [column, PiLp.toLp_apply, Matrix.diagonal_apply_eq]
  · rintro _ ⟨k, hk, rfl⟩
    exact Matrix.diagonal_apply_ne _ (Ne.symm hk)

/-- A matrix whose columns are exchanged. -/
theorem solveQr_exact_exchange :
    (∀ j, (1 / 2 ^ 52 : ℝ) < columnGap (Matrix.diagonal ![1, 2]) j) ∧
      (Matrix.diagonal ![1, 2]).mulVec
        (qrSolution (1 / 10 ^ 15) (1 / 2 ^ 52) (Matrix.diagonal ![1, 2]) 0 ![3, 4]) = ![3, 4] := by
  have hgap : ∀ j, (1 / 2 ^ 52 : ℝ) < columnGap (Matrix.diagonal ![1, 2]) j := by
    intro j
    refine lt_of_lt_of_le ?_ (columnGap_diagonal _ j)
    fin_cases j <;> norm_num
  exact ⟨hgap, (solveQr_exact (1 / 10 ^ 15) (by norm_num) _ 0).1 hgap _⟩

/-- A pivot below the precision: the unknown is set to zero. -/
theorem solveQr_tiny_pivot :
    (!![1 / 2 ^ 60] : Matrix (Fin 1) (Fin 1) ℝ).det ≠ 0 ∧
      (!![1 / 2 ^ 60] : Matrix (Fin 1) (Fin 1) ℝ).mulVec
        (qrSolution (1 / 10 ^ 15) (1 / 2 ^ 52) !![1 / 2 ^ 60] 0 ![1]) ≠ ![1] := by
  have hle : |(factorizeQrHouseholder (reals (1 / 10 ^ 15) (1 / 2 ^ 52)) 1
      (cells !![1 / 2 ^ 60])).A (0, 0)| ≤ 1 / 2 ^ 52 := by
    simp [factorizeQrHouseholder, householderColumn, largestNorm, householderLeft,
      householderCreateLeft, euclidianC, columnNorms, cells]
    norm_num
  have hzero : qrSolution (1 / 10 ^ 15) (1 / 2 ^ 52) !![1 / 2 ^ 60] 0 ![1] = 0 := by
    funext i
    obtain rfl : i = 0 := Subsingleton.elim _ _
    exact (stage_reduced (cells !![1 / 2 ^ 60]) le_rfl).substitute_eq_zero zero_lt_one hle _ 0
  rw [hzero]
  refine ⟨by simp, fun h => ?_⟩
  simpa using congrFun h 0

end Qucs.Linear
