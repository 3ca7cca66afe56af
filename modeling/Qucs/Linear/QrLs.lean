/-
# What `solve_qr_ls` solves

The transposed matrix is factorised, so `cMap` orders the rows of the system:
the equation `i` of the triangular system belongs to the row `cMap i`. The
substitution reads the right-hand side without `cMap` and writes the unknowns
through it, although they were never exchanged. It solves

    Σ_j A (cMap i, j) X (cMap j) = B i

(`Reduced.substituteLs`), and that is the system iff **exchanging the rows by the
table does the same as exchanging the columns** (`solveQrLs_exact_iff`). The table
is the order in which the rows are chosen as pivots. It does not need the
reflections, only the distances between the rows and the spans of those chosen
before (`pivots`, `stage_pivots`):

* first length: of the row without its first entry
* pivot: the first one of the longest rows that remain
* next length: √(s² - (d² - d'²)), where the distance goes from d to d'; d' itself
  where that has become tiny against s
-/
import Qucs.Linear.QrExact

namespace Qucs.Linear

open Lib.InPlace Lib.Mirrors Lib.Triangular Finset Matrix Submodule
open Matrix (diagonal)
open Finset (range Ico)

variable {tiny ε : ℝ} {N n : ℕ} {A₀ : ℕ × ℕ → ℝ} {s : Qr ℝ}

/-! ## The substitution -/

/-- The right-hand side after the forward substitution. -/
noncomputable def forwardLs (tiny ε : ℝ) (N : ℕ) (s : Qr ℝ) (B : ℕ → ℝ) : ℕ → ℝ :=
  sweep (List.range N) id
    (fun r B => divideAbove (reals tiny ε)
      ((List.range r).foldl (fun f c => f - s.A (c, r) * B c) (B r)) (s.A (r, r))) B

theorem Reduced.substituteLs_apply (h : Reduced N A₀ N s) (B X : ℕ → ℝ) {j : ℕ} (hj : j < N) :
    substituteQrHouseholderLs (reals tiny ε) N s B X (s.cMap j) =
      mirrorsBack N (house N s.A) s.T N (forwardLs tiny ε N s B) j := by
  rw [substituteQrHouseholderLs, foldl_reverse_reflectColumn]
  obtain ⟨z, hz, -⟩ := sweep_range s.cMap
    (fun r _ => mirrorsBack N (house N s.A) s.T N (forwardLs tiny ε N s B) r) X
    (fun i hi j hj => h.perm.injOn hi hj) hj
  exact hz

variable (tiny) in
/-- The forward substitution solves with the transposed R. -/
theorem forwardLs_solves (hε : 0 ≤ ε) (hdiag : ∀ r < N, ε < |s.A (r, r)|) (B : ℕ → ℝ) {i : ℕ}
    (hi : i < N) : ∑ k ∈ range N, s.upper k i * forwardLs tiny ε N s B k = B i := by
  refine forward_solves id (l := fun r k => s.upper k r) (fun i k hk => if_pos hk)
    (fun _ _ _ _ h => h) (fun r hr z hz => ?_) hi
  have hself : s.upper r r = s.A (r, r) := if_neg (lt_irrefl r)
  have hzr := hz r fun j hj => hj.ne
  rw [hself, mul_divideAbove hε (hdiag r hr), foldl_sub_range, hzr]
  congr 1
  refine sum_congr rfl fun k hk => ?_
  rw [Qr.upper, if_neg (by have := mem_range.mp hk; omega)]
  rfl

variable (tiny) in
/-- **What the substitution solves**: the rows in the order of the table, with
the unknowns in that order too. -/
theorem Reduced.substituteLs (h : Reduced N A₀ N s) (hε : 0 ≤ ε)
    (hdiag : ∀ r < N, ε < |s.A (r, r)|) (B X : ℕ → ℝ) {i : ℕ} (hi : i < N) :
    ∑ j ∈ range N, A₀ (j, s.cMap i) *
      substituteQrHouseholderLs (reals tiny ε) N s B X (s.cMap j) = B i := by
  rw [← forwardLs_solves tiny hε hdiag B hi]
  generalize hy : forwardLs tiny ε N s B = y
  have hdot := dot_mirrors h.isMirror (sorted A₀ s.cMap i) (mirrorsBack N (house N s.A) s.T N y)
  rw [mirrors_mirrorsBack h.isMirror] at hdot
  have himage : dot N (mirrors N (house N s.A) s.T N (sorted A₀ s.cMap i)) y =
      ∑ k ∈ range N, s.upper k i * y k := by
    refine sum_congr rfl fun k hk => ?_
    rw [h.image_eq hi (mem_range.mp hk)]
  rw [← himage, hdot]
  refine sum_congr rfl fun j hj => ?_
  rw [h.substituteLs_apply B X (mem_range.mp hj), hy]
  rfl

variable (tiny) in
/-- A diagonal entry that is taken for zero leaves a relation between the
unknowns. -/
theorem Reduced.substituteLs_relation (h : Reduced N A₀ N s) {r : ℕ} (hr : r < N)
    (hle : |s.A (r, r)| ≤ ε) :
    ∃ w : ℕ → ℝ, (∃ k < N, w k ≠ 0) ∧ ∀ B X, ∑ j ∈ range N, w j *
      substituteQrHouseholderLs (reals tiny ε) N s B X (s.cMap j) = 0 := by
  have hback : ∀ x y, dot N (mirrorsBack N (house N s.A) s.T N x)
      (mirrorsBack N (house N s.A) s.T N y) = dot N x y := by
    intro x y
    rw [← dot_mirrors h.isMirror, mirrors_mirrorsBack h.isMirror, mirrors_mirrorsBack h.isMirror]
  have hsingle : ∀ y : ℕ → ℝ, dot N (Pi.single r 1) y = y r := by
    intro y
    rw [dot, sum_eq_single r, Pi.single_eq_same, one_mul]
    · intro k _ hk
      rw [Pi.single_eq_of_ne hk, zero_mul]
    · exact fun h => absurd (mem_range.mpr hr) h
  refine ⟨mirrorsBack N (house N s.A) s.T N (Pi.single r 1), ?_, fun B X => ?_⟩
  · by_contra hall
    have hone := hback (Pi.single r 1) (Pi.single r 1)
    rw [hsingle, Pi.single_eq_same, dot, sum_eq_zero] at hone
    · exact zero_ne_one hone
    · intro k hk
      have hzero := not_not.mp fun hne => hall ⟨k, mem_range.mp hk, hne⟩
      rw [hzero, zero_mul]
  · obtain ⟨z, hz, -⟩ := sweep_range id (fun r B => divideAbove (reals tiny ε)
      ((List.range r).foldl (fun f c => f - s.A (c, r) * B c) (B r)) (s.A (r, r))) B
      (fun _ _ _ _ h => h) hr
    have hzero : forwardLs tiny ε N s B r = 0 := hz.trans (divideAbove_of_le hle)
    rw [← hzero, ← hsingle (forwardLs tiny ε N s B), ← hback]
    refine sum_congr rfl fun j hj => ?_
    rw [h.substituteLs_apply B X (mem_range.mp hj)]

/-! ## The order of the rows -/

/-- What is left of the length `s` when the distance goes from `d` to `d'`. -/
noncomputable def remainingLength (tiny s d d' : ℝ) : ℝ :=
  if s > 0 then
    let y := √(s ^ 2 - (d ^ 2 - d' ^ 2))
    if y / s < tiny then d' else y
  else s

/-- The columns in the order of the pivots chosen so far, and the lengths of those
that remain. -/
structure Pivots where
  order : ℕ → ℕ
  length : ℕ → ℝ

/-- The pivot of place `c`. -/
noncomputable def choosePivot (tiny : ℝ) (N : ℕ) (A₀ : ℕ × ℕ → ℝ) (s : Pivots) (c : ℕ) : Pivots :=
  let exchange := Equiv.swap (largestNorm N s.length c).1 c
  let order := s.order ∘ exchange
  { order := order
    length := fun j => if c < j ∧ j < N then
        remainingLength tiny (s.length (exchange j)) (gap N A₀ order c j) (gap N A₀ order (c + 1) j)
      else s.length (exchange j) }

/-- The first `c` pivots. -/
noncomputable def pivots (tiny : ℝ) (N : ℕ) (A₀ : ℕ × ℕ → ℝ) (c : ℕ) : Pivots :=
  (List.range c).foldl (choosePivot tiny N A₀) ⟨id, fun j => √(∑ i ∈ Ico 1 N, A₀ (i, j) ^ 2)⟩

theorem pivots_succ (c : ℕ) :
    pivots tiny N A₀ (c + 1) = choosePivot tiny N A₀ (pivots tiny N A₀ c) c := by
  rw [pivots, List.range_succ, List.foldl_append]
  rfl

theorem pivots_length_succ (c j : ℕ) : (pivots tiny N A₀ (c + 1)).length j =
    if c < j ∧ j < N then remainingLength tiny
      ((pivots tiny N A₀ c).length (Equiv.swap (largestNorm N (pivots tiny N A₀ c).length c).1 c j))
      (gap N A₀ (pivots tiny N A₀ (c + 1)).order c j)
      (gap N A₀ (pivots tiny N A₀ (c + 1)).order (c + 1) j)
    else (pivots tiny N A₀ c).length
      (Equiv.swap (largestNorm N (pivots tiny N A₀ c).length c).1 c j) := by
  rw [pivots_succ]
  rfl

theorem pivots_left {k c d : ℕ} (hk : k < c) (hcd : c ≤ d) (hd : d ≤ N) :
    (pivots tiny N A₀ d).order k = (pivots tiny N A₀ c).order k := by
  induction d, hcd using Nat.le_induction with
  | base => rfl
  | succ d hcd ih =>
    obtain ⟨hdp, -⟩ := largestNorm_range (pivots tiny N A₀ d).length hd
    rw [pivots_succ, ← ih (by omega)]
    refine congrArg (pivots tiny N A₀ d).order (Equiv.swap_apply_of_ne_of_ne ?_ ?_) <;> omega

theorem remainingNorm_eq (A : ℕ × ℕ → ℝ) {c r : ℕ} {d d' : ℝ} (s : ℝ)
    (hcell : A (c, r) ^ 2 = d ^ 2 - d' ^ 2) (hd : √(∑ i ∈ Ico (c + 1) N, A (i, r) ^ 2) = d') :
    remainingNorm (reals tiny ε) N A c r s = remainingLength tiny s d d' := by
  rw [remainingNorm, remainingLength, euclidianC_eq, hd, ← hcell]
  split_ifs with hs
  · have hlength : (if A (c, r) / s * (A (c, r) / s) < 1 then
        s * √(1 - A (c, r) / s * (A (c, r) / s)) else 0) = √(s ^ 2 - A (c, r) ^ 2) := by
      have hratio : s ^ 2 * (1 - A (c, r) / s * (A (c, r) / s)) = s ^ 2 - A (c, r) ^ 2 := by
        field_simp
      rw [← hratio, Real.sqrt_mul (sq_nonneg s), Real.sqrt_sq hs.le]
      split_ifs with ht
      · rfl
      · rw [Real.sqrt_eq_zero_of_nonpos (by linarith), mul_zero]
    have hsqrt : (reals tiny ε).sqrt = Real.sqrt := rfl
    have htiny : (reals tiny ε).tiny = tiny := rfl
    simp only [hsqrt, htiny, hlength]
    rw [abs_of_nonneg (div_nonneg (Real.sqrt_nonneg _) hs.le)]
  · rfl

theorem householderColumn_nPvt (prec : Precision ℝ) (c j : ℕ) :
    (householderColumn prec N s c).nPvt j =
      if c < j ∧ j < N then remainingNorm prec N (householderColumn prec N s c).A c j
        (s.nPvt (Equiv.swap (largestNorm N s.nPvt c).1 c j))
      else s.nPvt (Equiv.swap (largestNorm N s.nPvt c).1 c j) := by
  rw [householderColumn_eq rfl]
  split_ifs with hj
  · obtain ⟨z, hz, -, hother⟩ := sweep_range' id (fun r nPvt => remainingNorm prec N
      (householderLeft prec N (swapCols (largestNorm N s.nPvt c).1 c s).A c).1 c r (nPvt r))
      (swapCols (largestNorm N s.nPvt c).1 c s).nPvt (fun _ _ _ _ h => h) (n := N - (c + 1)) hj.1
      (by omega)
    refine hz.trans ?_
    dsimp only
    rw [hother j fun i _ hi => hi.ne]
    rfl
  · refine (sweep_of_ne fun i hi => ?_).trans rfl
    have := List.mem_range'_1.mp hi
    exact fun h : i = j => by omega

theorem stage_cMap_succ {c : ℕ}
    (h : (stage (reals tiny ε) N A₀ c).cMap = (pivots tiny N A₀ c).order ∧
      (stage (reals tiny ε) N A₀ c).nPvt = (pivots tiny N A₀ c).length) :
    (stage (reals tiny ε) N A₀ (c + 1)).cMap = (pivots tiny N A₀ (c + 1)).order := by
  rw [stage_succ, householderColumn_eq rfl, pivots_succ, h.1, h.2]
  rfl

/-- **The order of the pivots** is that of the factorisation, as long as the
diagonal of R is not zero. -/
theorem stage_pivots {c : ℕ} (hc : c ≤ N)
    (hdiag : ∀ i < c, (stage (reals tiny ε) N A₀ c).A (i, i) ≠ 0) :
    (stage (reals tiny ε) N A₀ c).cMap = (pivots tiny N A₀ c).order ∧
      (stage (reals tiny ε) N A₀ c).nPvt = (pivots tiny N A₀ c).length := by
  induction c with
  | zero => exact ⟨rfl, funext fun j => euclidianC_eq A₀ j 1⟩
  | succ c ih =>
    have hbefore := ih (by omega) fun i hi => by
      rw [← (stage_left A₀ hi c.le_succ hc).2]
      exact hdiag i (by omega)
    have hcMap := stage_cMap_succ hbefore
    refine ⟨hcMap, funext fun j => ?_⟩
    have hgap : ∀ k ≤ c + 1, c < j ∧ j < N → gap N A₀ (pivots tiny N A₀ (c + 1)).order k j =
        √(∑ i ∈ Ico k N, (stage (reals tiny ε) N A₀ (c + 1)).A (i, j) ^ 2) := by
      intro k hk hj
      rw [← hcMap, (stage_reduced A₀ hc).gap_eq hk (by omega) hj.2 fun i hi => hdiag i (by omega)]
      simp only [show ¬ j < c + 1 by omega, false_and, if_false]
    rw [stage_succ, householderColumn_nPvt, ← stage_succ, hbefore.2, pivots_length_succ]
    split_ifs with hj
    · refine remainingNorm_eq _ _ ?_ (hgap (c + 1) le_rfl hj).symm
      rw [hgap c c.le_succ hj, hgap (c + 1) le_rfl hj, sum_eq_sum_Ico_succ_bot hc,
        Real.sq_sqrt (by positivity), Real.sq_sqrt (by positivity), add_sub_cancel_right]
    · rfl

/-! ## The solver -/

variable {A : Matrix (Fin n) (Fin n) ℝ}

theorem cells_transpose (A : Matrix (Fin n) (Fin n) ℝ) :
    (fun q : ℕ × ℕ => cells A (q.2, q.1)) = cells A.transpose := by
  funext q
  simp only [cells, transpose_apply, and_comm]

/-- The factorisation of the transposed matrix after `c` columns. -/
noncomputable def lsStage (tiny ε : ℝ) (A : Matrix (Fin n) (Fin n) ℝ) (c : ℕ) : Qr ℝ :=
  stage (reals tiny ε) n (cells A.transpose) c

theorem lsStage_reduced {c : ℕ} (hc : c ≤ n) :
    Reduced n (cells A.transpose) c (lsStage tiny ε A c) := stage_reduced _ hc

/-- An entry of the diagonal is the last one that is written there. -/
theorem lsStage_diag {c d i : ℕ} (hi : i < c) (hcd : c ≤ d) (hd : d ≤ n) :
    (lsStage tiny ε A d).A (i, i) = (lsStage tiny ε A c).A (i, i) := (stage_left _ hi hcd hd).2 i

/-- The result of `solve_qr_ls` for a square matrix. -/
noncomputable def qrLsSolution (tiny ε : ℝ) (A : Matrix (Fin n) (Fin n) ℝ) (x : ℕ → ℝ)
    (b : Fin n → ℝ) (i : Fin n) : ℝ := solveQrLs (reals tiny ε) n (cells A) (entries b) x i

theorem qrLsSolution_eq (x : ℕ → ℝ) (b : Fin n → ℝ) (i : Fin n) :
    qrLsSolution tiny ε A x b i =
      substituteQrHouseholderLs (reals tiny ε) n (lsStage tiny ε A n) (entries b) x i := by
  rw [qrLsSolution, solveQrLs, cells_transpose]
  rfl

/-- The table as a permutation of the rows. -/
noncomputable def rowOrder (tiny ε : ℝ) (A : Matrix (Fin n) (Fin n) ℝ) : Fin n ≃ Fin n :=
  have h := lsStage_reduced le_rfl
  Equiv.ofBijective (fun i => ⟨(lsStage tiny ε A n).cMap i, h.cMap_lt i.isLt⟩)
    (Finite.injective_iff_bijective.mp fun i j hij =>
      Fin.ext (h.perm.injOn i.isLt j.isLt (Fin.mk.inj hij)))

theorem rowOrder_val (i : Fin n) : (rowOrder tiny ε A i : ℕ) = (lsStage tiny ε A n).cMap i := rfl

theorem qrLsSolution_rows (hε : 0 ≤ ε) (hdiag : ∀ r < n, ε < |(lsStage tiny ε A n).A (r, r)|)
    (x : ℕ → ℝ) (b : Fin n → ℝ) (i : Fin n) :
    ∑ j, A (rowOrder tiny ε A i) j * qrLsSolution tiny ε A x b (rowOrder tiny ε A j) = b i := by
  have h : Reduced n (cells A.transpose) n (lsStage tiny ε A n) := lsStage_reduced le_rfl
  have hrow := h.substituteLs tiny hε hdiag (entries b) x i.isLt
  rw [entries_apply, sum_range] at hrow
  rw [← hrow]
  refine sum_congr rfl fun j _ => ?_
  rw [← rowOrder_val, cells_apply, transpose_apply, qrLsSolution_eq, rowOrder_val]

/-- Where all systems with a matrix are solved, no diagonal entry is taken for
zero. -/
theorem lsDiagonal_gt {x : ℕ → ℝ} (hsolve : ∀ b, A.mulVec (qrLsSolution tiny ε A x b) = b) :
    ∀ r < n, ε < |(lsStage tiny ε A n).A (r, r)| := by
  intro r hr
  by_contra hle
  have h : Reduced n (cells A.transpose) n (lsStage tiny ε A n) := lsStage_reduced le_rfl
  obtain ⟨w, ⟨k, hk, hw⟩, hrelation⟩ := h.substituteLs_relation tiny hr (not_lt.mp hle)
  have hunit := inverts hsolve (Pi.single (rowOrder tiny ε A ⟨k, hk⟩) 1)
  have hzero := hrelation (entries (A.mulVec (Pi.single (rowOrder tiny ε A ⟨k, hk⟩) 1))) x
  rw [sum_range, sum_eq_single ⟨k, hk⟩] at hzero
  · rw [← rowOrder_val, ← qrLsSolution_eq, hunit, Pi.single_eq_same, mul_one] at hzero
    exact hw hzero
  · intro j _ hj
    rw [← rowOrder_val, ← qrLsSolution_eq, hunit, Pi.single_eq_of_ne, mul_zero]
    exact fun heq => hj ((rowOrder tiny ε A).injective heq)
  · exact fun h => absurd (mem_univ _) h

/-- Where all systems with a matrix are solved, exchanging rows and unknowns
leaves it as it is. -/
theorem rowOrder_symmetric (hε : 0 ≤ ε) {x : ℕ → ℝ}
    (hsolve : ∀ b, A.mulVec (qrLsSolution tiny ε A x b) = b) (i j : Fin n) :
    A (rowOrder tiny ε A i) j = A i (rowOrder tiny ε A j) := by
  have hunit := inverts hsolve (Pi.single (rowOrder tiny ε A j) 1)
  have hrow := qrLsSolution_rows hε (lsDiagonal_gt hsolve) x
    (A.mulVec (Pi.single (rowOrder tiny ε A j) 1)) i
  rw [hunit, sum_eq_single j, Pi.single_eq_same, mul_one] at hrow
  · rw [hrow, mulVec_single_one]
    rfl
  · intro k _ hk
    rw [Pi.single_eq_of_ne, mul_zero]
    exact fun heq => hk ((rowOrder tiny ε A).injective heq)
  · exact fun h => absurd (mem_univ _) h

/-- The order in which the rows are chosen as pivots. -/
noncomputable def pivotOrder (tiny : ℝ) (A : Matrix (Fin n) (Fin n) ℝ) : ℕ → ℕ :=
  (pivots tiny n (cells A.transpose) n).order

theorem rowOrder_eq_pivotOrder (hdiag : ∀ r < n, (lsStage tiny ε A n).A (r, r) ≠ 0) (i : Fin n) :
    (rowOrder tiny ε A i : ℕ) = pivotOrder tiny A i := by
  rw [rowOrder_val, lsStage, (stage_pivots le_rfl hdiag).1, pivotOrder]

/-- Rows far from the span of those chosen before have a diagonal above the
precision. -/
theorem lsDiagonal_of_gap (hε : 0 ≤ ε)
    (hgap : ∀ c < n, ε < gap n (cells A.transpose) (pivotOrder tiny A) c c) {c : ℕ} (hc : c ≤ n) :
    ∀ r < c, ε < |(lsStage tiny ε A c).A (r, r)| := by
  induction c with
  | zero => exact fun r hr => absurd hr (Nat.not_lt_zero r)
  | succ c ih =>
    have hbefore : ∀ r < c, ε < |(lsStage tiny ε A (c + 1)).A (r, r)| := by
      intro r hr
      rw [lsStage_diag hr c.le_succ hc]
      exact ih (by omega) r hr
    have hne : ∀ r < c, (lsStage tiny ε A c).A (r, r) ≠ 0 := fun r hr =>
      abs_pos.mp (hε.trans_lt (ih (by omega) r hr))
    have horder : (lsStage tiny ε A (c + 1)).cMap =
        (pivots tiny n (cells A.transpose) (c + 1)).order :=
      stage_cMap_succ (stage_pivots (by omega) hne)
    have hfinal : ∀ i < c + 1,
        pivotOrder tiny A i = (pivots tiny n (cells A.transpose) (c + 1)).order i :=
      fun i hi => pivots_left hi hc le_rfl
    intro r hr
    rcases Nat.lt_succ_iff_lt_or_eq.mp hr with hr | rfl
    · exact hbefore r hr
    · rw [← (lsStage_reduced hc).diag_eq hr hc fun i hi => abs_pos.mp (hε.trans_lt (hbefore i hi)),
        horder, ← gap_congr (fun i hi => hfinal i (by omega)) (hfinal r hr)]
      exact hgap r hc

/-- **`solve_qr_ls` solves iff the order of the pivots does the same to the rows
as to the columns**, and every row is farther from the span of those chosen before
than the precision. -/
theorem solveQrLs_exact_iff (tiny : ℝ) (hε : 0 ≤ ε) (A : Matrix (Fin n) (Fin n) ℝ) (x : ℕ → ℝ) :
    (∀ b, A.mulVec (qrLsSolution tiny ε A x b) = b) ↔
      (∀ i j : Fin n, cells A (pivotOrder tiny A i, j) = cells A (i, pivotOrder tiny A j)) ∧
        ∀ c < n, ε < gap n (cells A.transpose) (pivotOrder tiny A) c c := by
  constructor
  · intro hsolve
    have hdiag := lsDiagonal_gt hsolve
    have hne : ∀ r < n, (lsStage tiny ε A n).A (r, r) ≠ 0 := fun r hr =>
      abs_pos.mp (hε.trans_lt (hdiag r hr))
    refine ⟨fun i j => ?_, fun c hc => ?_⟩
    · rw [← rowOrder_eq_pivotOrder hne, ← rowOrder_eq_pivotOrder hne, cells_apply, cells_apply]
      exact rowOrder_symmetric hε hsolve i j
    · have horder : (lsStage tiny ε A n).cMap = pivotOrder tiny A := (stage_pivots le_rfl hne).1
      rw [← horder, (lsStage_reduced le_rfl).diag_eq hc hc fun i hi => hne i (hi.trans hc)]
      exact hdiag c hc
  · rintro ⟨hsymm, hgap⟩ b
    have hdiag := lsDiagonal_of_gap hε hgap le_rfl
    funext i
    have hrow := qrLsSolution_rows hε hdiag x b i
    have hcells : ∀ j, A (rowOrder tiny ε A i) j = A i (rowOrder tiny ε A j) := by
      intro j
      have hne : ∀ r < n, (lsStage tiny ε A n).A (r, r) ≠ 0 := fun r hr =>
        abs_pos.mp (hε.trans_lt (hdiag r hr))
      have hcell := hsymm i j
      rwa [← rowOrder_eq_pivotOrder hne, ← rowOrder_eq_pivotOrder hne, cells_apply,
        cells_apply] at hcell
    simp only [hcells] at hrow
    rw [← hrow, Equiv.sum_comp (rowOrder tiny ε A) fun j => A i j * qrLsSolution tiny ε A x b j]
    rfl

/-- The first pivot of two rows is the second one, if its last entry is larger. -/
theorem pivotOrder_exchanged {A : Matrix (Fin 2) (Fin 2) ℝ} (h : |A 0 1| < |A 1 1|) :
    pivotOrder tiny A = Equiv.swap 1 0 := by
  have hfirst : (largestNorm 2 (pivots tiny 2 (cells A.transpose) 0).length 0).1 = 1 := by
    have hlength : ∀ j : Fin 2, (pivots tiny 2 (cells A.transpose) 0).length j = |A j 1| := by
      intro j
      show √(∑ i ∈ Ico 1 2, cells A.transpose (i, j) ^ 2) = _
      rw [Nat.Ico_succ_singleton, sum_singleton, Real.sqrt_sq_eq_abs]
      exact congrArg abs (cells_apply A.transpose 1 j)
    have h0 : (pivots tiny 2 (cells A.transpose) 0).length 0 = |A 0 1| := hlength 0
    have h1 : (pivots tiny 2 (cells A.transpose) 0).length 1 = |A 1 1| := hlength 1
    generalize (pivots tiny 2 (cells A.transpose) 0).length = l at h0 h1
    show (if l 1 > l 0 then (1, l 1) else (0, l 0)).1 = 1
    rw [if_pos (by rwa [h0, h1])]
  have hsecond : ∀ l : ℕ → ℝ, (largestNorm 2 l 1).1 = 1 := fun l => rfl
  rw [pivotOrder, pivots_succ, pivots_succ]
  show (id ∘ Equiv.swap (largestNorm 2 (pivots tiny 2 (cells A.transpose) 0).length 0).1 0) ∘
    Equiv.swap (largestNorm 2 _ 1).1 1 = _
  rw [hfirst, hsecond, Equiv.swap_self]
  rfl

theorem gap_diagonal (d : Fin n → ℝ) {order : ℕ → ℕ} {c : Fin n}
    (horder : ∀ k ≤ (c : ℕ), order k < n)
    (hinj : ∀ k < (c : ℕ), order k ≠ order c) :
    |d ⟨order c, horder c le_rfl⟩| ≤ gap n (cells (diagonal d).transpose) order c c := by
  have hcell : ∀ k (hk : k ≤ (c : ℕ)) (i : Fin n),
      vec n (sorted (cells (diagonal d).transpose) order k) i =
        diagonal d i ⟨order k, horder k hk⟩ := by
    intro k hk i
    rw [diagonal_transpose]
    exact cells_apply (diagonal d) i ⟨order k, horder k hk⟩
  refine (le_of_eq ?_).trans (le_infDist_span (i := ⟨order c, horder c le_rfl⟩) ?_ _)
  · rw [hcell c le_rfl, diagonal_apply_eq]
  · rintro _ ⟨k, hk, rfl⟩
    have hkc : k < (c : ℕ) := hk
    rw [hcell k hkc.le]
    exact diagonal_apply_ne _ fun h => hinj k hkc (Fin.mk.inj h).symm

/-- Two rows that are exchanged, with equal entries on the diagonal. -/
theorem solveQrLs_exact_exchanged :
    (diagonal ![2, 2]).mulVec
      (qrLsSolution (1 / 10 ^ 15) (1 / 2 ^ 52) (diagonal ![2, 2]) 0 ![3, 4]) = ![3, 4] := by
  have horder : pivotOrder (1 / 10 ^ 15) (diagonal ![(2 : ℝ), 2]) = Equiv.swap 1 0 :=
    pivotOrder_exchanged (by simp)
  refine (solveQrLs_exact_iff (1 / 10 ^ 15) (by norm_num) _ 0).mpr ⟨?_, fun c hc => ?_⟩ _
  · rw [horder]
    intro i j
    fin_cases i <;> fin_cases j <;> simp [cells]
  · rw [horder]
    refine lt_of_lt_of_le ?_ (gap_diagonal ![2, 2] (c := ⟨c, hc⟩) (fun k hk => ?_) fun k hk => ?_)
    · have hentry : ∀ k, |(![2, 2] : Fin 2 → ℝ) k| = 2 := by
        intro k
        fin_cases k <;> norm_num
      rw [hentry]
      norm_num
    · have hk : k < 2 := hk.trans_lt hc
      interval_cases k <;> decide
    · exact fun h => hk.ne ((Equiv.swap 1 0).injective h)

/-- The longer row comes second: the unknowns are divided by each other's
entry. -/
theorem solveQrLs_ascending :
    (diagonal ![1, 2] : Matrix (Fin 2) (Fin 2) ℝ).det ≠ 0 ∧
      (diagonal ![1, 2]).mulVec
        (qrLsSolution (1 / 10 ^ 15) (1 / 2 ^ 52) (diagonal ![1, 2]) 0 ![1, 0]) ≠ ![1, 0] := by
  refine ⟨by simp, fun hsolved => ?_⟩
  have hdiag : ∀ r < 2, 1 / 2 ^ 52 < |(lsStage (1 / 10 ^ 15) (1 / 2 ^ 52)
      (diagonal ![1, 2]) 2).A (r, r)| := by
    intro r hr
    have hgap : ∀ j, (1 / 2 ^ 52 : ℝ) < columnGap (diagonal ![1, 2]) j := by
      intro j
      refine lt_of_lt_of_le ?_ (columnGap_diagonal _ j)
      fin_cases j <;> norm_num
    rw [lsStage, diagonal_transpose]
    exact qrDiagonal_gt (by norm_num) hgap ⟨r, hr⟩
  have horder : ∀ i, (rowOrder (1 / 10 ^ 15) (1 / 2 ^ 52) (diagonal ![(1 : ℝ), 2]) i : ℕ) =
      Equiv.swap 1 0 (i : ℕ) := by
    intro i
    rw [rowOrder_eq_pivotOrder fun r hr => abs_pos.mp ((by norm_num : (0 : ℝ) < 1 / 2 ^ 52).trans
      (hdiag r hr)), pivotOrder_exchanged (by simp)]
  have hpivot : rowOrder (1 / 10 ^ 15) (1 / 2 ^ 52) (diagonal ![(1 : ℝ), 2]) 0 = 1 :=
    Fin.ext (horder 0)
  have hother : rowOrder (1 / 10 ^ 15) (1 / 2 ^ 52) (diagonal ![(1 : ℝ), 2]) 1 = 0 :=
    Fin.ext (horder 1)
  have hrow := qrLsSolution_rows (by norm_num) hdiag 0 ![1, 0] 0
  have hfirst := congrFun hsolved 0
  rw [mulVec_diagonal] at hfirst
  rw [Fin.sum_univ_two, hpivot, hother] at hrow
  simp at hrow hfirst
  linarith

end Qucs.Linear
