/-
# Gear's formulas are exact on variable steps

The nested loop of the Gear methods writes powers: with `timeBack c` for the time the
last `c` steps took, the entry in row `r` of a column is the `r`-th power of

    timeBack c / delta 0          corrector, columns 0, 1, ... , order
    timeBack (c + 1) / delta 0    predictor

(`gearCorrector_eq`, `gearPredictor_eq`). These times are different, so that the
matrix, a transposed Vandermonde matrix, is nonsingular, and its equations say that
the formula is right for powers of the time back from the new point. Then it is
right for all polynomials up to the order (`Lib.Stencil`).
-/
import Qucs.Lib.Stencil
import Qucs.Linear.LuExact
import Qucs.Transient.Coefficients

namespace Qucs.Transient

open Linear Lib.Stencil Lib.InPlace Polynomial Finset Function Matrix

variable {K V : Type*} [Field K]

def timeBack (delta : ℕ → K) (c : ℕ) : K := ∑ i ∈ range c, delta i

/-! ## The matrices -/

section Matrices

variable (order : ℕ) (delta : ℕ → K)

theorem powerColumn_eq (x : K) (c : ℕ) (A : ℕ × ℕ → K) :
    powerColumn x c order A = (x ^ order, fun q =>
      if q.2 = c ∧ 0 < q.1 ∧ q.1 ≤ order then x ^ q.1 else A q) := by
  rw [powerColumn, List.range_eq_range', ← pow_zero x]
  refine (foldl_write (s := fun r A => (x ^ r, A)) (k := fun q : ℕ × ℕ => q.1 - 1)
    (P := fun q => q.2 = c ∧ 0 < q.1) (w := fun q => x ^ q.1) (fun r _ A => ?_) order A).trans ?_
  · refine Prod.ext (pow_succ x r).symm (funext fun q => ?_)
    simp only [update_apply, Prod.ext_iff]
    split_ifs with h <;> first | omega | rw [h.1, pow_succ] | rfl
  · rw [zero_add]
    exact Prod.ext rfl (funext fun q => if_congr (by omega) rfl rfl)

theorem powerColumns_eq (columns offset : ℕ) (A : ℕ × ℕ → K) :
    powerColumns order delta columns offset A = (timeBack delta columns, fun q =>
      if offset ≤ q.2 ∧ q.2 < columns + offset ∧ 0 < q.1 ∧ q.1 ≤ order then
        (timeBack delta (q.2 - offset + 1) / delta 0) ^ q.1
      else A q) := by
  rw [powerColumns, List.range_eq_range', ← sum_range_zero delta]
  refine (foldl_write (s := fun c A => (timeBack delta c, A)) (k := fun q : ℕ × ℕ => q.2 - offset)
    (P := fun q => offset ≤ q.2 ∧ 0 < q.1 ∧ q.1 ≤ order)
    (w := fun q => (timeBack delta (q.2 - offset + 1) / delta 0) ^ q.1)
    (fun c _ A => ?_) columns A).trans ?_
  · have htimeBack : timeBack delta c + delta c = timeBack delta (c + 1) :=
      (sum_range_succ delta c).symm
    simp only [htimeBack, powerColumn_eq]
    refine Prod.ext rfl (funext fun q => ?_)
    dsimp only
    split_ifs with _ h <;> first | omega | rw [h.1] | rfl
  · rw [zero_add]
    exact Prod.ext rfl (funext fun q => if_congr (by omega) rfl rfl)

theorem firstRow_eq (q : ℕ × ℕ) :
    firstRow (K := K) order q = if q.1 = 0 ∧ q.2 ≤ order then 1 else 0 := by
  rw [firstRow, List.range_eq_range']
  refine (congrFun (foldl_write (s := fun _ A => A) (k := Prod.snd)
    (P := fun q : ℕ × ℕ => q.1 = 0) (w := 1) (fun c _ A => funext fun q => ?_)
      (order + 1) 0) q).trans
      (if_congr (by omega) rfl rfl)
  simp only [update_apply, Prod.ext_iff, and_comm, Pi.one_apply]

/-- The powers of nodes, as a matrix of the solver. -/
def powerTable (n : ℕ) (nodes : ℕ → K) : ℕ × ℕ → K :=
  fun q => if q.1 < n ∧ q.2 < n then nodes q.2 ^ q.1 else 0

theorem gearCorrector_eq : (gearCorrector order delta).1 =
    powerTable (order + 1) fun c => timeBack delta c / delta 0 := by
  funext q
  simp only [gearCorrector, powerColumns_eq, firstRow_eq, powerTable]
  split_ifs <;> try first | omega | rfl
  · rw [Nat.sub_add_cancel (by omega)]
  · rw [show q.1 = 0 by omega, pow_zero]
  · rw [show q.2 = 0 by omega, timeBack, sum_range_zero, zero_div, zero_pow (by omega)]

theorem gearPredictor_eq : (gearPredictor order delta).1 =
    powerTable (order + 1) fun c => timeBack delta (c + 1) / delta 0 := by
  funext q
  simp only [gearPredictor, powerColumns_eq, firstRow_eq, powerTable]
  split_ifs <;> try first | omega | rfl
  rw [show q.1 = 0 by omega, pow_zero]

end Matrices

/-! ## Their solutions -/

section Solutions

variable {n : ℕ} {nodes : ℕ → K}

theorem powerTable_eq_cells :
    powerTable n nodes = cells (Matrix.vandermonde fun c : Fin n => nodes c).transpose := by
  funext q
  rw [powerTable, cells]
  split
  case isTrue h => rw [transpose_apply, vandermonde_apply]
  case isFalse h => rfl

theorem entries_of_zero {b : ℕ → K} (hb : ∀ r, n ≤ r → b r = 0) :
    (entries fun r : Fin n => b r) = b := by
  funext r
  rw [entries]
  split
  case isTrue => rfl
  case isFalse h => exact (hb r (not_lt.mp h)).symm

variable [Field V] [LinearOrder V] [IsStrictOrderedRing V] (m : Magnitude K V)

theorem solvedSystem_cells {M : Matrix (Fin n) (Fin n) K} (hM : M.det ≠ 0) {b : ℕ → K}
    (hb : ∀ r, n ≤ r → b r = 0) :
    M.mulVec (fun c => solvedSystem m n (cells M) b c) = fun r : Fin n => b r := by
  have hsolved := (EqnSys.solveWith_new (m := m) hM .crout EqnSys.fresh 0
    fun r : Fin n => b r).solution
  rw [entries_of_zero hb] at hsolved
  exact hsolved

/-- Coefficients that solve the equations for the powers of different nodes. -/
theorem solved_powers (hnodes : ∀ i < n, ∀ j < n, nodes i = nodes j → i = j) {A : ℕ × ℕ → K}
    (hA : A = powerTable n nodes) (b coeff : ℕ → K) (hb : ∀ r, n ≤ r → b r = 0)
    (hcoeff : ∀ c < n, coeff c = solvedSystem m n A b c) :
    (of fun r c : Fin n => A (r, c)).det ≠ 0 ∧
      (of fun r c : Fin n => A (r, c)).mulVec (fun c => coeff c) = (fun r : Fin n => b r) ∧
      ∀ r < n, ∑ c ∈ range n, nodes c ^ r * coeff c = b r := by
  have hmatrix : (of fun r c : Fin n => A (r, c)) =
      (vandermonde fun c : Fin n => nodes c).transpose := by
    ext r c
    rw [of_apply, hA, powerTable_eq_cells, cells_apply]
  have hdet : (vandermonde fun c : Fin n => nodes c).transpose.det ≠ 0 := by
    rw [det_transpose, det_vandermonde_ne_zero_iff]
    exact fun i j h => Fin.ext (hnodes i i.isLt j j.isLt h)
  have hsolved := solvedSystem_cells m hdet hb
  rw [← powerTable_eq_cells, ← hA, ← funext fun c : Fin n => hcoeff c c.isLt] at hsolved
  rw [hmatrix]
  refine ⟨hdet, hsolved, fun r hr => ?_⟩
  rw [sum_range]
  exact congrFun hsolved ⟨r, hr⟩

end Solutions

/-! ## The formulas -/

section Formulas

theorem integrateGear_cur (coeff : ℕ → K) (order : ℕ) (cap : K) (state : ℕ → K) :
    (integrateGear coeff order cap state).cur = ∑ c ∈ range (order + 1), coeff c * state c := by
  simp only [integrateGear, foldl_add_range', zero_add]
  rw [range_eq_Ico, sum_eq_sum_Ico_succ_bot (Nat.succ_pos order), mul_comm, Nat.add_comm 1 order]
  exact congrArg _ (sum_congr rfl fun i _ => mul_comm _ _)

theorem predictGear_eq_sum (predCoeff : ℕ → K) (predOrder : ℕ) (sol : ℕ → K) :
    predictGear predCoeff predOrder sol = ∑ c ∈ range (predOrder + 1),
      predCoeff c * sol (c + 1) := by
  rw [predictGear, foldl_add, zero_add, sum_map_range]

variable [LinearOrder K] [IsStrictOrderedRing K] {delta : ℕ → K} {k : ℕ}

theorem timeBack_lt (hdelta : ∀ i < k, 0 < delta i) {i j : ℕ} (hij : i < j) (hj : j ≤ k) :
    timeBack delta i < timeBack delta j := by
  refine sum_lt_sum_of_subset (range_mono hij.le) (mem_range.mpr hij) (by simp)
    (hdelta i (by omega)) fun c hc _ => ?_
  exact (hdelta c (Nat.lt_of_lt_of_le (mem_range.mp hc) hj)).le

theorem timeBack_injective (hdelta : ∀ i < k, 0 < delta i) (hk : 0 < k) {i j : ℕ} (hi : i ≤ k)
    (hj : j ≤ k) (h : timeBack delta i / delta 0 = timeBack delta j / delta 0) : i = j := by
  have heq := (div_left_inj' (hdelta 0 hk).ne').mp h
  rcases Nat.lt_trichotomy i j with hlt | heq' | hgt
  · exact absurd heq (timeBack_lt hdelta hlt hj).ne
  · exact heq'
  · exact absurd heq.symm (timeBack_lt hdelta hgt hi).ne

variable [Field V] [LinearOrder V] [IsStrictOrderedRing V]

/-- **The Gear corrector is exact on variable steps**: its system is nonsingular, the
coefficients solve it, and the formula gives the derivative at the new time of every
polynomial up to the order. -/
theorem gearCorrector_exact (m : Magnitude K V) (order : ℕ) (horder : 1 ≤ order)
    (coefficients delta : ℕ → K) (hdelta : ∀ i < order, 0 < delta i) :
    (Matrix.of fun r c : Fin (order + 1) => (gearCorrector order delta).1 (r, c)).det ≠ 0 ∧
      (Matrix.of fun r c : Fin (order + 1) => (gearCorrector order delta).1 (r, c)).mulVec
        (fun c => calcCorrectorCoeff m .gear order coefficients delta c) =
          (fun r : Fin (order + 1) => (gearCorrector order delta).2 r) ∧
      ∀ p : K[X], p.natDegree ≤ order → ∀ t cap,
        (integrateGear (calcCorrectorCoeff m .gear order coefficients delta) order cap
          fun i => p.eval (t - timeBack delta i)).cur = p.derivative.eval t := by
  have hpos := hdelta 0 (by omega)
  have hnodes : ∀ i < order + 1, ∀ j < order + 1,
      timeBack delta i / delta 0 = timeBack delta j / delta 0 → i = j :=
    fun i hi j hj h => timeBack_injective hdelta (by omega) (by omega) (by omega) h
  obtain ⟨hdet, hsolved, hsum⟩ := solved_powers m hnodes (gearCorrector_eq order delta)
    (gearCorrector order delta).2 (calcCorrectorCoeff m .gear order coefficients delta)
    (fun r hr => update_of_ne (by omega) _ _) fun c hc => if_pos (Nat.lt_succ_iff.mp hc)
  refine ⟨hdet, hsolved, fun p hp t cap => ?_⟩
  rw [integrateGear_cur]
  refine Eq.trans (sum_congr rfl fun c _ => ?_)
    (sum_eval_of_derivative (Nat.lt_succ_of_le hp) (Nat.lt_succ_of_le horder) hpos.ne'
      fun r hr => (hsum r hr).trans (update_apply _ _ _ _))
  rw [mul_div_cancel₀ _ hpos.ne']

def storedPoint (delta : ℕ → K) (t : K) (o : ℕ) : K := t - timeBack delta (o + 1)

theorem storedPoint_injOn (hdelta : ∀ i < k, 0 < delta i) (t : K) :
    Set.InjOn (storedPoint delta t) (range k) := by
  intro i hi j hj h
  have heq := sub_right_injective h
  have hi' := mem_range.mp hi
  have hj' := mem_range.mp hj
  exact Nat.succ_injective (timeBack_injective hdelta (by omega) hi' hj' (by rw [heq]))

omit [LinearOrder K] [IsStrictOrderedRing K] in
theorem natDegree_le_iff_degree_lt {p : K[X]} :
    p.natDegree ≤ k ↔ p.degree < ((range (k + 1)).card : WithBot ℕ) := by
  rw [card_range, natDegree_le_iff_coeff_eq_zero, degree_lt_iff_coeff_zero]
  rfl

/-- **The Gear predictor is exact on variable steps**: there is one polynomial up to
the order through the stored solutions, and the prediction is its value at the new
time. -/
theorem gearPredictor_exact (m : Magnitude K V) (order : ℕ) (coefficients delta : ℕ → K)
    (hdelta : ∀ i < order + 1, 0 < delta i) (sol : ℕ → K) (t : K) :
    (∃! p : K[X], p.natDegree ≤ order ∧
      ∀ o ∈ range (order + 1), p.eval (storedPoint delta t o) = sol (o + 1)) ∧
    ∀ p : K[X], p.natDegree ≤ order →
      (∀ o ∈ range (order + 1), p.eval (storedPoint delta t o) = sol (o + 1)) →
      predictGear (calcPredictorCoeff m .gear order coefficients delta) order sol = p.eval t := by
  have hpos := hdelta 0 (by omega)
  have hpoints := storedPoint_injOn hdelta t
  constructor
  · refine ⟨Lagrange.interpolate (range (order + 1)) (storedPoint delta t) fun o => sol (o + 1),
      ⟨?_, fun o ho => Lagrange.eval_interpolate_at_node _ hpoints ho⟩, ?_⟩
    · exact natDegree_le_iff_degree_lt.mpr (Lagrange.degree_interpolate_lt _ hpoints)
    · rintro q ⟨hdegree, hq⟩
      exact Lagrange.eq_interpolate_of_eval_eq _ hpoints (natDegree_le_iff_degree_lt.mp hdegree) hq
  · intro p hp hsol
    have hnodes : ∀ i < order + 1, ∀ j < order + 1,
        timeBack delta (i + 1) / delta 0 = timeBack delta (j + 1) / delta 0 → i = j :=
      fun i hi j hj h => Nat.succ_injective (timeBack_injective hdelta (by omega) hi hj h)
    have hsum := (solved_powers m hnodes (gearPredictor_eq order delta)
      (gearPredictor order delta).2 (calcPredictorCoeff m .gear order coefficients delta)
      (fun r hr => update_of_ne (by omega) _ _) fun c hc => if_pos (Nat.lt_succ_iff.mp hc)).2.2
    rw [predictGear_eq_sum]
    refine Eq.trans (sum_congr rfl fun c hc => ?_)
      (sum_eval_of_value (δ := delta 0) (Nat.lt_succ_of_le hp)
        fun r hr => (hsum r hr).trans (update_apply _ _ _ _))
    rw [mul_div_cancel₀ _ hpos.ne', ← hsol c hc]
    rfl

/-- Second order with a step that is twice as long as the one before. -/
def doubledStep (i : ℕ) : ℚ := if i = 0 then 2 else 1

theorem doubledStep_pos (i : ℕ) : 0 < doubledStep i := by
  rw [doubledStep]
  split <;> norm_num

theorem gearCorrector_exact_doubledStep :
    (integrateGear (calcCorrectorCoeff EqnSys.rationals .gear 2 0 doubledStep) 2 1
      fun i => (X ^ 2 : ℚ[X]).eval (5 - timeBack doubledStep i)).cur = 10 := by
  have hexact := (gearCorrector_exact EqnSys.rationals 2 (by norm_num) 0 doubledStep
    fun i _ => doubledStep_pos i).2.2 (X ^ 2) (by simp) 5 1
  rw [hexact]
  norm_num

theorem gearPredictor_exact_doubledStep :
    predictGear (calcPredictorCoeff EqnSys.rationals .gear 2 0 doubledStep) 2
      (fun i => (X ^ 2 : ℚ[X]).eval (5 - timeBack doubledStep i)) = 25 := by
  have hexact := (gearPredictor_exact EqnSys.rationals 2 0 doubledStep
    (fun i _ => doubledStep_pos i) (fun i => (X ^ 2 : ℚ[X]).eval (5 - timeBack doubledStep i))
    5).2 (X ^ 2) (by simp) fun _ _ => rfl
  rw [hexact]
  norm_num

end Formulas

end Qucs.Transient
