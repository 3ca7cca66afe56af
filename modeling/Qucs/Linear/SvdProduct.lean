/-
# The product that the diagonalisation should keep

Over the reals, with an exact square root. The product is U B V', where B has S on its
diagonal and E above it (`Svd.product`). With `column` for a row of U B, it is

    ∑ q, (U (r, q) S (q) + U (r, q - 1) E (q)) V' (q, y)

(`Svd.product_apply`), so that a column of U B reads two columns of U. U and V' are
orthogonal if the columns of U and the rows of V' are frames (`Svd.Orthogonal`).

A number is negligible iff it is zero, and `search` finds the block that is worked
on: without zeros in it, and split off from the rows before it, or with a zero on the
diagonal before it (`Svd.search_spec`).
-/
import Qucs.Linear.Lu
import Qucs.Linear.QrFactors
import Qucs.Linear.Svd

namespace Qucs.Linear

open Lib.Rotations Finset Matrix
open Prod (mk)
open Finset (range)

variable {tiny ε : ℝ} {N : ℕ}

/-! ## Rotations -/

variable (tiny ε) in
theorem givens_spec {a b : ℝ} (h : a ≠ 0 ∨ b ≠ 0) :
    0 < (givens (reals tiny ε) a b).1 ∧
      (givens (reals tiny ε) a b).2.1 * (givens (reals tiny ε) a b).1 = a ∧
      (givens (reals tiny ε) a b).2.2 * (givens (reals tiny ε) a b).1 = b ∧
      (givens (reals tiny ε) a b).2.1 ^ 2 + (givens (reals tiny ε) a b).2.2 ^ 2 = 1 := by
  have hsq : 0 < a ^ 2 + b ^ 2 := by
    rcases h with h | h
    · positivity
    · positivity
  have hz := Real.sqrt_pos.mpr hsq
  simp only [givens, xhypot_eq]
  refine ⟨hz, div_mul_cancel₀ _ hz.ne', div_mul_cancel₀ _ hz.ne', ?_⟩
  rw [div_pow, div_pow, Real.sq_sqrt hsq.le, ← add_div, div_self hsq.ne']

theorem givensApplyU_apply {c1 c2 : ℕ} (hne : c1 ≠ c2) (c s : ℝ) (U : ℕ × ℕ → ℝ) {r : ℕ}
    (hr : r < N) :
    (fun q => givensApplyU N c1 c2 c s U (r, q)) = turn c1 c2 c s fun q => U (r, q) := by
  obtain ⟨hfirst, hsecond⟩ := rotate_at (fun i => (i, c1)) (fun i => (i, c2)) U
    (fun _ _ h => (mk.inj h).1) (fun _ _ h => (mk.inj h).1)
    (fun _ _ h => hne (mk.inj h).2) hr
  funext q
  rw [turn]
  split_ifs with h₁ h₂
  · subst h₁
    exact hfirst
  · subst h₂
    exact hsecond
  · exact rotate_of_ne _ _ U fun i _ => ⟨fun h => h₁ (mk.inj h).2.symm,
      fun h => h₂ (mk.inj h).2.symm⟩

theorem givensApplyV_apply {r1 r2 : ℕ} (hne : r1 ≠ r2) (c s : ℝ) (W : ℕ × ℕ → ℝ) {y : ℕ}
    (hy : y < N) :
    (fun q => givensApplyV N r1 r2 c s W (q, y)) = turn r1 r2 c s fun q => W (q, y) := by
  obtain ⟨hfirst, hsecond⟩ := rotate_at (fun i => (r1, i)) (fun i => (r2, i)) W
    (fun _ _ h => (mk.inj h).2) (fun _ _ h => (mk.inj h).2)
    (fun _ _ h => hne (mk.inj h).1) hy
  funext q
  rw [turn]
  split_ifs with h₁ h₂
  · subst h₁
    exact hfirst
  · subst h₂
    exact hsecond
  · exact rotate_of_ne _ _ W fun i _ => ⟨fun h => h₁ (mk.inj h).1.symm,
      fun h => h₂ (mk.inj h).1.symm⟩

theorem frame_givensApplyU {U : ℕ × ℕ → ℝ} (h : Frame N fun r q => U (r, q)) {c1 c2 : ℕ}
    (h₁ : c1 < N) (h₂ : c2 < N) (hne : c1 ≠ c2) {c s : ℝ} (hcs : c ^ 2 + s ^ 2 = 1) :
    Frame N fun r q => givensApplyU N c1 c2 c s U (r, q) :=
  (h.turn h₁ h₂ hne hcs).congr fun _ hr => givensApplyU_apply hne c s U hr

theorem frame_givensApplyV {W : ℕ × ℕ → ℝ} (h : Frame N fun y q => W (q, y)) {r1 r2 : ℕ}
    (h₁ : r1 < N) (h₂ : r2 < N) (hne : r1 ≠ r2) {c s : ℝ} (hcs : c ^ 2 + s ^ 2 = 1) :
    Frame N fun y q => givensApplyV N r1 r2 c s W (q, y) :=
  (h.turn h₁ h₂ hne hcs).congr fun _ hy => givensApplyV_apply hne c s W hy

namespace Svd

/-! ## The product -/

/-- The matrix with S on the diagonal and E above it. -/
def bidiagonal (N : ℕ) (x : Svd ℝ) : Matrix (Fin N) (Fin N) ℝ :=
  Matrix.of fun i j => if i = j then x.S j else if (i : ℕ) + 1 = j then x.E j else 0

/-- What the function is to keep; its last factor is V'. -/
def product (N : ℕ) (x : Svd ℝ) : Matrix (Fin N) (Fin N) ℝ :=
  square N x.U * x.bidiagonal N * square N x.V

/-- One row of U B, by the row `u` of U. -/
def column (u S E : ℕ → ℝ) (q : ℕ) : ℝ := u q * S q + u (q - 1) * E q

variable {x y : Svd ℝ}

theorem mul_bidiagonal_apply (hE : x.E 0 = 0) (r q : Fin N) :
    (square N x.U * x.bidiagonal N) r q = column (fun q => x.U (r, q)) x.S x.E q := by
  have hterm : ∀ i, square N x.U r i * x.bidiagonal N i q =
      (if i = q then x.U (r, i) * x.S q else 0) +
        if (i : ℕ) + 1 = q then x.U (r, i) * x.E q else 0 := by
    intro i
    simp only [square, bidiagonal, of_apply]
    by_cases hi : i = q
    · subst hi
      simp
    · simp [hi]
  rw [mul_apply, sum_congr rfl fun i _ => hterm i, sum_add_distrib,
    sum_ite_eq' univ q, if_pos (mem_univ q), column]
  congr 1
  obtain ⟨q, hq⟩ := q
  cases q with
  | zero => simp [hE]
  | succ q =>
    rw [sum_eq_single ⟨q, by omega⟩]
    · simp
    · intro i _ hi
      refine if_neg fun h => hi (Fin.ext ?_)
      simpa using h
    · intro h
      exact absurd (mem_univ _) h

theorem product_apply (hE : x.E 0 = 0) (r y : Fin N) : x.product N r y =
    ∑ q ∈ range N, column (fun q => x.U (r, q)) x.S x.E q * x.V (q, y) := by
  rw [product, mul_apply, sum_range]
  refine sum_congr rfl fun q _ => ?_
  rw [mul_bidiagonal_apply hE]
  rfl

theorem frame_iff {w : ℕ → ℕ → ℝ} : Frame N w ↔
    ∀ p q : Fin N, ∑ r : Fin N, w r p * w r q = (1 : Matrix (Fin N) (Fin N) ℝ) p q := by
  simp only [Frame, sum_range, one_apply]
  constructor
  · intro h p q
    simpa [Fin.ext_iff] using h p p.isLt q q.isLt
  · intro h p hp q hq
    simpa [Fin.ext_iff] using h ⟨p, hp⟩ ⟨q, hq⟩

theorem frame_columns_iff {A : ℕ × ℕ → ℝ} :
    Frame N (fun r q => A (r, q)) ↔ square N A ∈ Matrix.orthogonalGroup (Fin N) ℝ := by
  rw [frame_iff, mem_orthogonalGroup_iff', ← ext_iff]
  rfl

theorem frame_rows_iff {A : ℕ × ℕ → ℝ} :
    Frame N (fun y q => A (q, y)) ↔ square N A ∈ Matrix.orthogonalGroup (Fin N) ℝ := by
  rw [frame_iff, mem_orthogonalGroup_iff, ← ext_iff]
  rfl

structure Orthogonal (N : ℕ) (x : Svd ℝ) : Prop where
  u : Frame N fun r q => x.U (r, q)
  v : Frame N fun y q => x.V (q, y)

/-- With the same V', the products agree iff the columns of U B do. -/
theorem product_eq_iff (hV : x.V = y.V) (hv : Frame N fun y q => x.V (q, y)) (hx : x.E 0 = 0)
    (hy : y.E 0 = 0) : x.product N = y.product N ↔ ∀ r < N, ∀ q < N,
      column (fun q => x.U (r, q)) x.S x.E q = column (fun q => y.U (r, q)) y.S y.E q := by
  have hunit : square N x.V * star (square N x.V) = 1 :=
    (mem_orthogonalGroup_iff _ _).mp (frame_rows_iff.mp hv)
  have hcancel : x.product N = y.product N ↔
      square N x.U * x.bidiagonal N = square N y.U * y.bidiagonal N := by
    rw [product, product, ← hV]
    constructor
    · intro h
      have hmul := congrArg (· * star (square N x.V)) h
      simpa only [mul_assoc, hunit, mul_one] using hmul
    · intro h
      rw [h]
  rw [hcancel, ← ext_iff]
  simp only [mul_bidiagonal_apply hx, mul_bidiagonal_apply hy]
  exact ⟨fun h r hr q hq => h ⟨r, hr⟩ ⟨q, hq⟩, fun h r q => h r r.isLt q q.isLt⟩

/-! ## The block -/

theorem negligible_iff {an a : ℝ} : negligible an a ↔ a = 0 := by
  rw [negligible, decide_eq_true_iff, add_eq_right, abs_eq_zero]

/-- The block from `l` to `k`: no zero in it, and what is before it. -/
structure Block (x : Svd ℝ) (k : ℕ) (p : Split) : Prop where
  le : p.l ≤ k
  before : p.n = p.l - 1
  above : ∀ q, p.l < q → q ≤ k → x.E q ≠ 0
  diag : ∀ q, p.l ≤ q → q < k → x.S q ≠ 0
  zero : (p.split ∧ p.l = 0) ∨
    (p.split ∧ 0 < p.l ∧ x.E p.l ≠ 0 ∧ x.S p.n = 0) ∨
    (p.split = false ∧ 0 < p.l ∧ x.E p.l = 0)

theorem search_spec (an : ℝ) (x : Svd ℝ) (k : ℕ) : Block x k (search an x k) := by
  induction k with
  | zero =>
    exact ⟨le_rfl, rfl, fun q h₁ h₂ => absurd h₂ (not_le.mpr h₁),
      fun q _ h => absurd h (Nat.not_lt_zero q), .inl ⟨rfl, rfl⟩⟩
  | succ k ih =>
    have hhere : ∀ b, (b = true ∧ x.E (k + 1) ≠ 0 ∧ x.S k = 0) ∨ (b = false ∧ x.E (k + 1) = 0) →
        Block x (k + 1) ⟨k + 1, b, k⟩ := fun b hb =>
      ⟨le_rfl, rfl, fun q h₁ h₂ => absurd h₂ (not_le.mpr h₁),
        fun q h₁ h₂ => absurd h₂ (not_lt.mpr h₁),
        .inr (hb.imp (fun h => ⟨h.1, Nat.succ_pos k, h.2⟩) fun h => ⟨h.1, Nat.succ_pos k, h.2⟩)⟩
    rw [search]
    split_ifs with hE hS
    · exact hhere false (.inr ⟨rfl, negligible_iff.mp hE⟩)
    · exact hhere true (.inl ⟨rfl, fun h => hE (negligible_iff.mpr h), negligible_iff.mp hS⟩)
    · have hE' : x.E (k + 1) ≠ 0 := fun h => hE (negligible_iff.mpr h)
      have hS' : x.S k ≠ 0 := fun h => hS (negligible_iff.mpr h)
      refine ⟨ih.le.trans (Nat.le_succ k), ih.before, fun q hl hq => ?_, fun q hl hq => ?_, ih.zero⟩
      · rcases Nat.le_succ_iff.mp hq with hq | rfl
        · exact ih.above q hl hq
        · exact hE'
      · rcases Nat.lt_succ_iff_lt_or_eq.mp hq with hq | rfl
        · exact ih.diag q hl hq
        · exact hS'

end Svd

end Qucs.Linear
