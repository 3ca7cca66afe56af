/-
# The Adams formulas at a constant step

In units of the step, and with the last point at 0, the derivatives that the methods
use are those at

    1, 0, -1, ...      Adams-Moulton
    0, -1, -2, ...     Adams-Bashford

Row `r` of the equations says that the formula is right for the power `r`
(`adamsMatrix`), from 0 to 1. The corrector solves its formula for the derivative at
the new point, whose weight is not zero (`moulton_weight_ne_zero`).

`predictBashford` takes divided differences for the derivatives, which lag half a step
behind: from the second derivative on the prediction is off, and **the predictor is
exact for straight lines only** (`adams_exact_iff`).
-/
import Qucs.Transient.Gear

namespace Qucs.Transient

open Linear Lib.Stencil Lib.InPlace Polynomial Finset Function Matrix

variable {K V : Type*} [Field K]

/-! ## The matrices -/

section Matrices

variable (order : ℕ)

/-- In row `r` the value of the power `r` at 0 and its derivatives at the nodes
`offset - 1`, `offset - 2`, ... -/
def adamsMatrix (offset : ℕ) : Matrix (Fin (order + 1)) (Fin (order + 1)) K :=
  of fun r c => if (c : ℕ) = 0 then (if (r : ℕ) = 0 then 1 else 0)
    else r * ((offset : K) - c) ^ (r - 1 : ℕ)

theorem adamsColumn_eq (c column : ℕ) (A : ℕ × ℕ → K) :
    adamsColumn c column order A = fun q =>
      if (2 ≤ q.1 ∧ q.1 < 2 + (order - 1)) ∧ q.2 = column then q.1 * (-(c : K)) ^ (q.1 - 1)
      else A q := by
  have hloop := foldl_write (s := fun r (A : ℕ × ℕ → K) => ((-(c : K)) ^ (r - 1), A))
    (g := fun s r => (s.1 * -(c : K), Function.update s.2 (r, column) (r * s.1)))
    (k := Prod.fst) (P := fun q => q.2 = column) (w := fun q => q.1 * (-(c : K)) ^ (q.1 - 1))
    (m := 2) (fun r hr A => by
      refine Prod.ext ?_ (funext fun q => ?_)
      · show _ * _ = _
        rw [← pow_succ]
        congr 1
        omega
      · simp only [update_apply, Prod.ext_iff]
        split_ifs with h
        · rw [h.1]
        · rfl) (order - 1) A
  rw [show (-(c : K)) ^ (2 - 1) = -(c : K) from pow_one _] at hloop
  exact congrArg Prod.snd hloop

theorem adamsColumns_eq (n offset : ℕ) (A : ℕ × ℕ → K) :
    (List.range' 1 n).foldl (fun A c => adamsColumn c (c + offset) order A) A = fun q =>
      if (1 ≤ q.2 - offset ∧ q.2 - offset < 1 + n) ∧ 2 ≤ q.1 ∧ q.1 < 2 + (order - 1) then
        q.1 * ((offset : K) - q.2) ^ (q.1 - 1)
      else A q := by
  refine foldl_write (s := fun _ A => A) (fun c hc A => ?_) n A
  rw [adamsColumn_eq]
  funext q
  by_cases hq : q.2 = c + offset
  · rw [hq]
    simp [and_comm]
  · rw [if_neg (by tauto), if_neg (by omega)]

theorem moultonMatrix_eq : moultonMatrix order = cells (adamsMatrix (K := K) order 2) := by
  have hborder := foldl_write (s := fun _ (A : ℕ × ℕ → K) => A)
    (g := fun A i => update (update A (i, 1) (i : K)) (1, i) 1)
    (k := fun q => max q.1 q.2) (P := fun q => 0 < q.1 ∧ 0 < q.2 ∧ (q.1 = 1 ∨ q.2 = 1))
    (w := fun q => (q.1 : K)) (m := 1) (fun i hi A => by
      funext q
      simp only [update_apply, Prod.ext_iff]
      split_ifs <;> first | omega | simp_all) order 0
  funext q
  rw [moultonMatrix, hborder, adamsColumns_eq]
  simp only [update_apply, cells, adamsMatrix, of_apply, Prod.ext_iff]
  split_ifs <;> try first | omega | rfl
  case neg h _ _ =>
    rcases h.2.2.2 with h | h
    · simp [h]
    · norm_num [h]
  case neg =>
    rcases Nat.eq_zero_or_pos q.1 with h | h
    · simp [h]
    · simp [show q.2 = 2 by omega, show q.1 - 1 ≠ 0 by omega]

theorem bashfordMatrix_eq : bashfordMatrix order = cells (adamsMatrix (K := K) order 1) := by
  have hborder := foldl_write (s := fun _ (A : ℕ × ℕ → K) => A)
    (g := fun A i => update A (1, i) 1) (k := Prod.snd) (P := fun q => q.1 = 1) (w := 1) (m := 1)
    (fun i hi A => by
      funext q
      simp only [update_apply, Prod.ext_iff]
      split_ifs <;> first | omega | rfl) order 0
  funext q
  rw [bashfordMatrix, hborder, adamsColumns_eq]
  simp only [update_apply, cells, adamsMatrix, of_apply, Prod.ext_iff]
  split_ifs <;> try first | omega | rfl
  case neg h _ _ => simp [h.2]
  case neg =>
    rcases Nat.eq_zero_or_pos q.1 with h | h
    · simp [h]
    · simp [show q.2 = 1 by omega, show q.1 - 1 ≠ 0 by omega]

theorem det_adamsMatrix [CharZero K] (offset : ℕ) :
    (adamsMatrix (K := K) order offset).det ≠ 0 := by
  have hblock : (adamsMatrix order offset).submatrix Fin.succ Fin.succ =
      diagonal (fun r : Fin order => (r + 1 : K)) *
        (vandermonde fun c : Fin order => (offset : K) - (c + 1 : ℕ)).transpose := by
    ext r c
    simp [adamsMatrix, diagonal_mul, vandermonde_apply]
  have hdet : (adamsMatrix (K := K) order offset).det =
      ((adamsMatrix order offset).submatrix Fin.succ Fin.succ).det := by
    simp [det_succ_row_zero, adamsMatrix]
  rw [hdet, hblock, det_mul, det_diagonal, det_transpose]
  refine mul_ne_zero (prod_ne_zero_iff.mpr fun r _ => Nat.cast_add_one_ne_zero (r : ℕ))
    (det_vandermonde_ne_zero_iff.mpr fun i j h => ?_)
  simpa [Fin.ext_iff] using h

end Matrices

/-! ## The formulas -/

variable [Field V] [LinearOrder V] [IsStrictOrderedRing V] (m : Magnitude K V)

/-- The weights that both methods solve for: the rows are divided by their number. -/
theorem adamsWeights_spec [CharZero K] {order offset : ℕ} {A : ℕ × ℕ → K} {x : ℕ → K}
    (hA : A = cells (adamsMatrix order offset))
    (hx : x = solvedSystem m (order + 1) A fun i => if i ≤ order then 1 else 0) :
    x 0 = 1 ∧ ∀ r < order, ∑ c ∈ range order, ((offset : K) - (c + 1 : ℕ)) ^ r * x (c + 1) =
      1 / (r + 1) := by
  have hsolved (r : Fin (order + 1)) : ∑ c : Fin (order + 1), adamsMatrix order offset r c * x c =
      1 := by
    rw [hx, hA]
    exact (congrFun (solvedSystem_cells m (det_adamsMatrix order offset) fun r hr =>
      if_neg (by omega)) r).trans (if_pos (Nat.lt_succ_iff.mp r.isLt))
  simp only [Fin.sum_univ_succ, adamsMatrix, of_apply] at hsolved
  constructor
  · simpa using hsolved 0
  · intro r hr
    have hrow := hsolved ⟨r + 1, by omega⟩
    have hne : (r + 1 : K) ≠ 0 := Nat.cast_add_one_ne_zero r
    rw [eq_div_iff hne, mul_comm, mul_sum, sum_range]
    simpa [mul_assoc] using hrow

variable [LinearOrder K] [IsStrictOrderedRing K] {order : ℕ}

/-- The derivative at the new point has a weight: without it the formula would not
integrate the polynomial with the other nodes as its roots. -/
theorem moulton_weight_ne_zero (horder : 1 ≤ order) {x : ℕ → K}
    (hx : ∀ r < order, ∑ c ∈ range order, (((2 : ℕ) : K) - (c + 1 : ℕ)) ^ r * x (c + 1) =
      1 / (r + 1)) : x 1 ≠ 0 := by
  intro hzero
  have hsum := sum_eval_eq hx (p := ascPochhammer K (order - 1))
    (by rw [ascPochhammer_natDegree]; omega)
  rw [sum_eq_zero fun c hc => ?_] at hsum
  · have hcoeff : ∀ r, 0 ≤ (ascPochhammer K (order - 1)).coeff r := by
      intro r
      rw [← ascPochhammer_map (Nat.castRingHom K), coeff_map]
      exact Nat.cast_nonneg _
    have hmonic := (monic_ascPochhammer K (order - 1)).coeff_natDegree
    rw [ascPochhammer_natDegree] at hmonic
    refine hsum.not_lt (sum_pos' (fun r _ => ?_) ⟨order - 1, mem_range.mpr (by omega), ?_⟩)
    · exact mul_nonneg (hcoeff r) (by positivity)
    · rw [hmonic]
      positivity
  · cases c with
    | zero => rw [hzero, zero_mul]
    | succ c =>
      have hnode : ((2 : ℕ) : K) - (c + 1 + 1 : ℕ) = -c := by
        push_cast
        ring
      rw [hnode, ascPochhammer_eval_neg_coe_nat_of_lt (by have := mem_range.mp hc; omega), mul_zero]

section Exact

variable (coefficients : ℕ → K) {h : K} {p : K[X]} (horder : 1 ≤ order) (hh : 0 < h)
  (hp : p.natDegree ≤ order) (t : K)
include horder hh hp

theorem moulton_exact (cap : K) :
    (integrateMoulton (calcCorrectorCoeff m .adamsMoulton order coefficients fun _ => h) order cap
      (fun i => p.eval (t - i * h)) fun i => p.derivative.eval (t - i * h)).cur =
        p.derivative.eval t := by
  simp only [integrateMoulton, calcCorrectorCoeff, foldl_add_range', sum_Ico_eq_sum_range]
  generalize hsolved : solvedSystem m _ (moultonMatrix order) _ = x
  obtain ⟨hzero, hx⟩ := adamsWeights_spec m (moultonMatrix_eq order) hsolved.symm
  have hk := moulton_weight_ne_zero horder hx
  have hincrement := sum_eval_of_increment (t := t - h) (δ := -h) horder hp hx
  have hpoint (c : ℕ) : t - h - -h * (((2 : ℕ) : K) - (c + 1 : ℕ)) = t - c * h := by
    push_cast
    ring
  obtain ⟨n, rfl⟩ := Nat.exists_eq_add_of_le' horder
  simp only [hpoint, sum_range_succ' _ n] at hincrement
  have hsum : ∑ i ∈ range (2 + (n + 1 - 1) - 2), p.derivative.eval (t - (2 + i - 1 : ℕ) * h) *
      (if 2 + i = 0 then 1 / h / x 1 else if 2 + i = 1 then -x 0 / h / x 1
        else if 2 + i ≤ n + 1 then -x (2 + i) / x 1 else coefficients (2 + i)) =
      -(∑ c ∈ range n, x (c + 1 + 1) * p.derivative.eval (t - (c + 1 : ℕ) * h)) / x 1 := by
    rw [show 2 + (n + 1 - 1) - 2 = n by omega, ← sum_neg_distrib, sum_div]
    refine sum_congr rfl fun i hi => ?_
    have hi := mem_range.mp hi
    rw [if_neg (by omega), if_neg (by omega), if_pos (by omega), add_comm 2 i]
    show p.derivative.eval (t - (i + 1 : ℕ) * h) * _ = _
    ring
  rw [hsum, hzero]
  generalize ∑ c ∈ range n, x (c + 1 + 1) * p.derivative.eval _ = S at *
  simp at hincrement ⊢
  field_simp
  linear_combination hincrement

/-- A prediction from values at a constant step. -/
def predictedBashford (order : ℕ) (coefficients : ℕ → K) (h : K) (p : K[X]) (t : K) : K :=
  predictBashford (calcPredictorCoeff m .adamsBashford order coefficients fun _ => h) order
    (fun _ => h) fun i => p.eval (t - i * h)

omit horder hp in
theorem predictedBashford_weights (order : ℕ) : ∃ w : ℕ → K,
    (∀ r < order, ∑ c ∈ range order, (((1 : ℕ) : K) - (c + 1 : ℕ)) ^ r * w c = 1 / (r + 1)) ∧
    ∀ p t, predictedBashford m order coefficients h p t = p.eval (t - h) +
      ∑ c ∈ range order, w c * (p.eval (t + (-h - c * h)) - p.eval (t + (-h - c * h - h))) := by
  have hweights : calcPredictorCoeff m .adamsBashford order coefficients (fun _ => h) 0 = 1 ∧
      ∀ r < order, ∑ c ∈ range order, (((1 : ℕ) : K) - (c + 1 : ℕ)) ^ r *
        (calcPredictorCoeff m .adamsBashford order coefficients (fun _ => h) (c + 1) / h) =
          1 / (r + 1) := by
    by_cases htwo : order = 2
    · subst htwo
      refine ⟨rfl, fun r hr => ?_⟩
      interval_cases r <;> simp [calcPredictorCoeff, sum_range_succ] <;> field_simp <;> ring
    · obtain ⟨hzero, hx⟩ := adamsWeights_spec m (bashfordMatrix_eq order) rfl
      simp only [calcPredictorCoeff, htwo, false_and, if_false]
      refine ⟨hzero, fun r hr => (sum_congr rfl fun c hc => ?_).trans (hx r hr)⟩
      have hc := mem_range.mp hc
      rw [if_neg (by omega), if_pos (by omega), mul_div_cancel_right₀ _ hh.ne']
  refine ⟨_, hweights.2, fun p t => ?_⟩
  rw [predictedBashford, predictBashford, foldl_add_range', sum_Ico_eq_sum_range, hweights.1,
    Nat.cast_one, one_mul, one_mul, Nat.add_sub_cancel_left]
  refine congrArg _ (sum_congr rfl fun c _ => ?_)
  rw [add_comm 1 c]
  push_cast
  ring_nf

omit hp in
/-- The divided differences are the derivatives half a step earlier. This shows in the
second derivative. -/
theorem predictedBashford_quadratic (hp : p.natDegree ≤ 2) (hone : order = 1 → p.coeff 2 = 0) :
    predictedBashford m order coefficients h p t = p.eval t - p.coeff 2 * h ^ 2 := by
  have heval (x : K) : p.eval x = p.coeff 0 + p.coeff 1 * x + p.coeff 2 * x ^ 2 := by
    rw [eval_eq_sum_range' (Nat.lt_succ_of_le hp)]
    simp [sum_range_succ]
  obtain ⟨w, hw, hpredicted⟩ := predictedBashford_weights m coefficients hh order
  have hsum : ∑ c ∈ range order, w c = 1 := by simpa using hw 0 horder
  have hhalf : p.coeff 2 * ∑ c ∈ range order, (((1 : ℕ) : K) - (c + 1 : ℕ)) * w c =
      p.coeff 2 * (1 / 2) := by
    rcases horder.eq_or_lt with h | h
    · rw [hone h.symm, zero_mul, zero_mul]
    · have hrow := hw 1 h
      simp only [pow_one] at hrow
      rw [hrow, Nat.cast_one, one_add_one_eq_two]
  calc predictedBashford m order coefficients h p t
      = p.eval (t - h) + ∑ c ∈ range order, ((p.coeff 1 + p.coeff 2 * (2 * t - 3 * h)) * h * w c +
          2 * h ^ 2 * (p.coeff 2 * ((((1 : ℕ) : K) - (c + 1 : ℕ)) * w c))) := by
        rw [hpredicted]
        refine congrArg _ (sum_congr rfl fun c _ => ?_)
        rw [heval, heval]
        push_cast
        ring
    _ = p.eval t - p.coeff 2 * h ^ 2 := by
        rw [sum_add_distrib, ← mul_sum, ← mul_sum, ← mul_sum, hsum, hhalf, heval, heval]
        ring

omit horder hp in
/-- A formula that is exact for a polynomial at all times is exact for its derivatives. -/
theorem predictedBashford_hasseDeriv
    (hexact : ∀ t, predictedBashford m order coefficients h p t = p.eval t) (d : ℕ) :
    predictedBashford m order coefficients h (hasseDeriv d p) 0 = (hasseDeriv d p).eval 0 := by
  obtain ⟨w, -, hpredicted⟩ := predictedBashford_weights m coefficients hh order
  have hpoly : taylor (-h) p + ∑ c ∈ range order,
      C (w c) * (taylor (-h - c * h) p - taylor (-h - c * h - h) p) = taylor 0 p := by
    refine Polynomial.funext fun t => ?_
    simp only [eval_add, eval_finsetSum, eval_mul, eval_sub, eval_C, taylor_eval, add_zero]
    rw [← hexact t, hpredicted, sub_eq_add_neg]
  simpa only [hpredicted, zero_sub, zero_add, coeff_add, finsetSum_coeff, coeff_C_mul, coeff_sub,
    taylor_coeff] using congrArg (coeff · d) hpoly

/-- Of a higher degree, the second derivative from the highest on has this error. -/
theorem predictedBashford_exact_iff :
    (∀ t, predictedBashford m order coefficients h p t = p.eval t) ↔ p.natDegree ≤ 1 := by
  constructor
  · intro hexact
    by_contra hdegree
    obtain ⟨d, hd⟩ := Nat.exists_eq_add_of_le' (Nat.lt_of_not_le hdegree)
    have hq : (hasseDeriv d p).natDegree = 2 := by
      rw [natDegree_hasseDeriv, hd, Nat.add_sub_cancel_left]
    have hzero := predictedBashford_hasseDeriv m coefficients hh hexact d
    rw [predictedBashford_quadratic m coefficients horder hh 0 hq.le (by omega),
      sub_eq_self] at hzero
    refine mul_ne_zero ?_ (pow_ne_zero 2 hh.ne') hzero
    rw [← hq, coeff_natDegree, leadingCoeff_ne_zero]
    rintro h
    simp [h] at hq
  · intro hdegree t
    have hcoeff := coeff_eq_zero_of_natDegree_lt (Nat.lt_succ_of_le hdegree)
    rw [predictedBashford_quadratic m coefficients horder hh t (by omega) fun _ => hcoeff, hcoeff,
      zero_mul, sub_zero]

end Exact

/-- **The Adams corrector is exact at a constant step, for all polynomials up to the
order; the predictor is exact for straight lines only.** -/
theorem adams_exact_iff (m : Magnitude K V) (order : ℕ) (horder : 1 ≤ order)
    (coefficients : ℕ → K) {h : K} (hh : 0 < h) (p : K[X]) (hp : p.natDegree ≤ order) :
    (∀ t cap, (integrateMoulton (calcCorrectorCoeff m .adamsMoulton order coefficients fun _ => h)
      order cap (fun i => p.eval (t - i * h)) fun i => p.derivative.eval (t - i * h)).cur =
        p.derivative.eval t) ∧
    ((∀ t, predictBashford (calcPredictorCoeff m .adamsBashford order coefficients fun _ => h)
      order (fun _ => h) (fun i => p.eval (t - i * h)) = p.eval t) ↔ p.natDegree ≤ 1) :=
  ⟨moulton_exact m coefficients horder hh hp,
    predictedBashford_exact_iff m coefficients horder hh hp⟩

theorem adams_exact_three :
    (integrateMoulton (calcCorrectorCoeff EqnSys.rationals .adamsMoulton 3 0 fun _ => 1 / 2) 3 1
      (fun i => (X ^ 3 : ℚ[X]).eval (5 - i * (1 / 2)))
      fun i => (X ^ 3 : ℚ[X]).derivative.eval (5 - i * (1 / 2))).cur = 75 ∧
    predictBashford (calcPredictorCoeff EqnSys.rationals .adamsBashford 3 0 fun _ => 1 / 2) 3
      (fun _ => 1 / 2) (fun i => (4 * X : ℚ[X]).eval (5 - i * (1 / 2))) = 20 := by
  have hcorrector := (adams_exact_iff EqnSys.rationals 3 (by norm_num) 0
    (h := 1 / 2) (by norm_num) (X ^ 3) (by simp)).1 5 1
  have hdegree : (4 * X : ℚ[X]).natDegree ≤ 1 := natDegree_C_mul_le 4 X |>.trans natDegree_X_le
  have hpredictor := (adams_exact_iff EqnSys.rationals 3 (by norm_num) 0
    (h := 1 / 2) (by norm_num) (4 * X) (by omega)).2.mpr hdegree 5
  rw [hcorrector, hpredictor]
  norm_num

/-- t² at the second order: 0, 1 and 4 are followed by 8. -/
theorem predictBashford_square :
    predictBashford (calcPredictorCoeff EqnSys.rationals .adamsBashford 2 0 fun _ => 1) 2
      (fun _ => 1) (fun i => (X ^ 2 : ℚ[X]).eval (3 - i * 1)) = 8 ∧
    (X ^ 2 : ℚ[X]).eval 3 = 9 := by
  norm_num [predictBashford, calcPredictorCoeff, List.range'_succ]

end Qucs.Transient
