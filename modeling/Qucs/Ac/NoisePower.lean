/-
# One transposed solve gives the noise of a node

Noise currents with the correlation matrix C at the inputs of a system with the
matrix A make noise voltages with the correlation matrix A⁻¹ C A⁻ᴴ. Its diagonal has
the noise powers. The solver does not invert A. For the node i it solves

    Aᵀ zn = -eᵢ,

with the factors of Aᵀ, so that `zn` is the row i of A⁻¹, up to the sign
(`transimpedance_eq`), and the power is zn C zn*, where the sign cancels
(`scalar_transimpedance`). What a round leaves behind is `noiseRound_spec`; the loop
over the nodes keeps the factors (`Adjoint`), so that **every node gets its power**
(`solvePoint_noise`), at every frequency (`solve_noise`).
-/
import Qucs.Ac.Noise
import Qucs.Linear.Determinant
import Qucs.Linear.LuExact

namespace Qucs.Ac

open Linear Lib.InPlace Matrix List
open Complex (re le_def)
open Function (update update_apply)

/-! ## Transposition -/

section Transpose

variable {K : Type*}

/-- One row changes places with its column, up to the diagonal. -/
theorem transposeRow (A : ℕ × ℕ → K) (r k : ℕ) (hk : k ≤ r) (q : ℕ × ℕ) :
    (List.range k).foldl (fun A c => update (update A (r, c) (A (c, r))) (c, r)
      (A (r, c))) A q = if (q.1 = r ∧ q.2 < k) ∨ (q.2 = r ∧ q.1 < k) then A q.swap else A q := by
  induction k generalizing q with
  | zero => simp
  | succ k ih =>
    rw [range_succ, foldl_append, foldl_cons, foldl_nil]
    have hlow := ih (by omega) (r, k)
    have hup := ih (by omega) (k, r)
    rw [if_neg (by simp only; omega)] at hlow hup
    obtain ⟨i, j⟩ := q
    grind

theorem transpose_eq (n : ℕ) (A : ℕ × ℕ → K) (q : ℕ × ℕ) :
    transpose n A q = if q.1 < n ∧ q.2 < n then A q.swap else A q := by
  rw [transpose]
  induction n generalizing q with
  | zero => simp
  | succ n ih =>
    rw [range_succ, foldl_append, foldl_cons, foldl_nil]
    rw [transposeRow _ n n le_rfl, ih, ih]
    obtain ⟨i, j⟩ := q
    grind

end Transpose

/-! ## The power by transimpedances -/

section Power

variable {K : Type*} [Field K] {n : ℕ}

theorem sum_transpose (A : ℕ × ℕ → K) (v : ℕ → K) (i : Fin n) :
    ∑ j ∈ Finset.range n, transpose n A (i, j) * v j = (square n A)ᵀ.mulVec (fun j => v j) i := by
  rw [Finset.sum_range]
  refine Finset.sum_congr rfl fun j _ => ?_
  rw [transpose_eq, if_pos ⟨i.isLt, j.isLt⟩]
  rfl

theorem nonsingular_transpose {A : ℕ × ℕ → K} (hA : (square n A).det ≠ 0) :
    Nonsingular n (transpose n A) := by
  intro v hv j hj
  have hzero : (square n A)ᵀ.mulVec (fun j => v j) = 0 := by
    funext i
    rw [← sum_transpose]
    exact hv i i.isLt
  rw [← Matrix.det_transpose] at hA
  exact congrFun (Matrix.eq_zero_of_mulVec_eq_zero hA hzero) ⟨j, hj⟩

theorem transimpedance_eq {A : ℕ × ℕ → K} (hA : (square n A).det ≠ 0) (i : Fin n) {zn : ℕ → K}
    (hzn : ∀ k < n, ∑ j ∈ Finset.range n, transpose n A (k, j) * zn j = if k = i then -1 else 0)
    (j : Fin n) : zn j = -(square n A)⁻¹ i j := by
  have hsolve : (square n A)ᵀ.mulVec (fun j => zn j) = -Pi.single i 1 := by
    funext k
    rw [← sum_transpose, hzn k k.isLt, Pi.neg_apply, Pi.single_apply]
    simp only [Fin.val_inj]
    split <;> simp
  have hunit : IsUnit (square n A)ᵀ.det := by
    rw [Matrix.det_transpose]
    exact hA.isUnit
  have hz : (fun j : Fin n => zn j) = (square n A)ᵀ⁻¹.mulVec (-Pi.single i 1) := by
    rw [← hsolve, Matrix.mulVec_mulVec, Matrix.nonsing_inv_mul _ hunit, Matrix.one_mulVec]
  have hj := congrFun hz j
  rw [Matrix.mulVec_neg, ← Matrix.transpose_nonsing_inv] at hj
  simpa using hj

variable [StarRing K]

theorem scalar_transimpedance {A C : ℕ × ℕ → K} {i : Fin n} {zn : ℕ → K}
    (hzn : ∀ j : Fin n, zn j = -(square n A)⁻¹ i j) :
    scalar n (mulMatrix n zn C) (fun j => star (zn j)) =
      ((square n A)⁻¹ * square n C * (square n A)⁻¹ᴴ) i i := by
  have hfold : ∀ f : ℕ → K, (range n).foldl (fun s i => s + f i) 0 = ∑ j : Fin n, f j := by
    intro f
    rw [Fin.sum_univ_eq_sum_range, foldl_add, zero_add, sum_map_range]
  rw [scalar, hfold, Matrix.mul_apply]
  refine Finset.sum_congr rfl fun c _ => ?_
  rw [mulMatrix, hfold, Matrix.mul_apply, hzn c, Matrix.conjTranspose_apply, star_neg, mul_neg,
    ← neg_mul, ← Finset.sum_neg_distrib]
  congr 1
  refine Finset.sum_congr rfl fun r _ => ?_
  rw [hzn r, neg_mul, neg_neg]
  rfl

end Power

/-! ## The loop over the nodes -/

namespace Solver

section Rounds

variable {K V : Type*} [Field K] [Field V] [LinearOrder V] {m : Magnitude K V} {n : ℕ}
  {p : Point K} {s : Solver K V}

/-- The solver between two rounds: the transposed matrix is factored. -/
structure Adjoint (n : ℕ) (p : Point K) (s : Solver K V) : Prop where
  size : s.eqns.N = n
  factored : Factored n .crout (transpose n p.A) n s.eqns.factors
  update : s.updateMatrix = false
  algo : s.eqnAlgo = .luSubstitutionCrout
  noise : s.C = p.C

/-- A right-hand side is solved for with the factors that are there. -/
theorem Adjoint.runMNA (h : Adjoint n p s) :
    Adjoint n p (runMNA m n s) ∧ (runMNA m n s).xn = s.xn ∧
      ∀ k < n, ∑ j ∈ Finset.range n, transpose n p.A (k, j) * (runMNA m n s).x j = s.z k := by
  have hrun : Solver.runMNA m n s = { s with
      eqns := { s.eqns with
        B := s.z, X := substituteLu n .crout s.eqns.factors s.z s.x, update := false }
      A := s.eqns.factors.A
      x := substituteLu n .crout s.eqns.factors s.z s.x } := by
    simp only [Solver.runMNA, h.update, h.algo, ← h.size]
    rfl
  rw [hrun]
  exact ⟨⟨h.size, h.factored, h.update, h.algo, h.noise⟩, rfl,
    fun k hk => h.factored.substitute s.z s.x hk⟩

variable [StarRing K] (real : K → V) (sqrt : V → V)

/-- **One round**: the factors stay, and one node gets its noise. -/
theorem noiseRound_spec (h : Adjoint n p s) (hA : (square n p.A).det ≠ 0) (i : Fin n) :
    Adjoint n p (noiseRound m n real sqrt s i) ∧
      (noiseRound m n real sqrt s i).xn = update s.xn i (sqrt (real
        (((square n p.A)⁻¹ * square n p.C * (square n p.A)⁻¹ᴴ) i i))) := by
  have hz : Adjoint n p { s with z := update (fun _ => 0) (i : ℕ) (-1) } :=
    ⟨h.size, h.factored, h.update, h.algo, h.noise⟩
  obtain ⟨hready, hxn, hsolve⟩ := hz.runMNA
  refine ⟨⟨hready.size, hready.factored, hready.update, hready.algo, hready.noise⟩, ?_⟩
  have hpower := scalar_transimpedance (C := p.C) (transimpedance_eq hA i fun k hk =>
    (hsolve k hk).trans (update_apply (fun _ => (0 : K)) (i : ℕ) (-1) k))
  rw [noiseRound, hxn, hready.noise, hpower]

/-- **All rounds.** -/
theorem foldl_noiseRound (h : Adjoint n p s) (hA : (square n p.A).det ≠ 0) (i : Fin n) :
    ((List.range n).foldl (noiseRound m n real sqrt) s).xn i = sqrt (real
      (((square n p.A)⁻¹ * square n p.C * (square n p.A)⁻¹ᴴ) i i)) := by
  have hall := Lib.Fold.foldl_rule (f := noiseRound m n real sqrt) (l := range n)
    (P := fun done s => Adjoint n p s ∧ ∀ i : Fin n, ↑i ∈ done → s.xn i = sqrt (real
      (((square n p.A)⁻¹ * square n p.C * (square n p.A)⁻¹ᴴ) i i)))
    ⟨h, fun i hi => absurd hi not_mem_nil⟩ ?_
  · exact hall.2 i (mem_range.mpr i.isLt)
  · intro done r rest hlist ⟨hready, hdone⟩
    have hr : r < n := mem_range.mp (by rw [hlist]; simp)
    obtain ⟨hready', hxn⟩ := noiseRound_spec (m := m) real sqrt hready hA ⟨r, hr⟩
    refine ⟨hready', fun i hi => ?_⟩
    rw [hxn, update_apply]
    split
    case isTrue heq =>
      obtain rfl := Fin.ext heq
      rfl
    case isFalse hne =>
      refine hdone i ((mem_append.mp hi).resolve_right fun hmem => hne ?_)
      exact mem_singleton.mp hmem

variable [IsStrictOrderedRing V]

/-- The noise of all nodes, if the matrix is passed on at first; what was solved
before stays. -/
theorem solveNoise_spec (hupdate : s.updateMatrix) (hA : (square n p.A).det ≠ 0) :
    (solveNoise m n real sqrt p s).x = s.x ∧
      ∀ i : Fin n, (solveNoise m n real sqrt p s).xn i = sqrt (real
        (((square n p.A)⁻¹ * square n p.C * (square n p.A)⁻¹ᴴ) i i)) := by
  refine ⟨rfl, fun i => ?_⟩
  refine foldl_noiseRound real sqrt ?_ hA i
  simp only [Solver.runMNA, createMatrix, hupdate, if_true]
  exact ⟨rfl, factorizeLu_factored (nonsingular_transpose hA), rfl, rfl, rfl⟩

/-- One frequency, after whatever was solved before. -/
theorem solvePoint_spec (hA : (square n p.A).det ≠ 0) (s : Solver K V) (i : Fin n) :
    (solvePoint m n real sqrt s p).xn i = sqrt (real
      (((square n p.A)⁻¹ * square n p.C * (square n p.A)⁻¹ᴴ) i i)) :=
  (solveNoise_spec real sqrt rfl hA).2 i

end Rounds

/-! ## Complex numbers -/

section Complex

variable {n : ℕ} (m : Magnitude ℂ ℝ) (sqrt : ℝ → ℝ)

theorem re_power {A C : Matrix (Fin n) (Fin n) ℂ} (hC : C.IsHermitian) (i : Fin n) :
    (((A⁻¹ * C * A⁻¹ᴴ) i i).re : ℂ) = (A⁻¹ * C * A⁻¹ᴴ) i i := by
  have hherm : (A⁻¹ * C * A⁻¹ᴴ).IsHermitian := Matrix.isHermitian_mul_mul_conjTranspose _ hC
  exact Complex.conj_eq_iff_re.mp (hherm.apply i i)

/-- **The noise power of every node**: what the solver takes the root of is the
entry on the diagonal of A⁻¹ C A⁻ᴴ. -/
theorem solvePoint_noise (p : Point ℂ) (hA : (square n p.A).det ≠ 0)
    (hC : (square n p.C).IsHermitian) (s : Solver ℂ ℝ) (i : Fin n) :
    ∃ power : ℝ,
      (power : ℂ) = ((square n p.A)⁻¹ * square n p.C * (square n p.A)⁻¹ᴴ) i i ∧
      (solvePoint m n re sqrt s p).xn i = sqrt power :=
  ⟨_, re_power hC i, solvePoint_spec _ _ hA s i⟩

/-- Two nodes, one without a conductance of its own, and correlated currents. -/
noncomputable def pair : Point ℂ where
  A := cells !![0, 1; Complex.I, 1]
  z := fun _ => 0
  C := cells !![2, Complex.I; -Complex.I, 3]

theorem solvePoint_noise_pair :
    (square 2 pair.A).det ≠ 0 ∧ (square 2 pair.C).IsHermitian ∧ ∃ power : ℝ,
      (power : ℂ) = ((square 2 pair.A)⁻¹ * square 2 pair.C * (square 2 pair.A)⁻¹ᴴ) 0 0 ∧
      (solvePoint modulus 2 re Real.sqrt fresh pair).xn 0 = √power := by
  have hdet : (square 2 pair.A).det ≠ 0 := by simp [Matrix.det_fin_two, square, pair, cells]
  have hherm : (square 2 pair.C).IsHermitian := by
    ext i j
    fin_cases i <;> fin_cases j <;> simp [square, pair, cells]
  exact ⟨hdet, hherm, solvePoint_noise modulus Real.sqrt pair hdet hherm fresh 0⟩

/-- The same at all frequencies, each with its own matrices. -/
theorem solve_noise (s : Solver ℂ ℝ) (ps : List (Point ℂ)) :
    List.Forall₂ (fun p (result : (ℕ → ℂ) × (ℕ → ℝ)) =>
      (square n p.A).det ≠ 0 → (square n p.C).IsHermitian → ∀ i : Fin n, ∃ power : ℝ,
        (power : ℂ) = ((square n p.A)⁻¹ * square n p.C * (square n p.A)⁻¹ᴴ) i i ∧
        result.2 i = sqrt power) ps (solve m n re sqrt s ps) := by
  induction ps generalizing s with
  | nil => exact .nil
  | cons p ps ih =>
    refine .cons (fun hA hC i => ?_) (ih _)
    exact ⟨_, re_power hC i, solvePoint_spec _ _ hA s i⟩

end Complex

end Solver

end Qucs.Ac
