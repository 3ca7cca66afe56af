/-
# Every round of the diagonalisation

A round at k looks for the block that ends at k, cancels the entry before it if there is
a zero on the diagonal there, and turns the sign of the last entry or makes a QR
transformation. `Before` are the states that the two loops come to, before a round.

**U and V' stay orthogonal in every round.**  The product stays in a round that finds
the block split off from the rows behind it, except for the cancellation: there it stays
only if S and E happen to match (`diagonalizeSvd_round`). The block is split off as long
as the loops for the larger k have converged, so the whole function keeps the product if
all of them do and nothing is cancelled that does not match (`diagonalizeSvd_product`).
-/
import Qucs.Linear.SvdCancel
import Qucs.Linear.SvdSweep

namespace Qucs.Linear.Svd

open Lib.Rotations List
open Matrix (orthogonalGroup)
open Finset (range)

variable {tiny ε : ℝ} {N k : ℕ} {x : Svd ℝ}

/-! ## The parts of a round -/

theorem nonNegative_spec (hx : Orthogonal N x) (hE₀ : x.E 0 = 0) (hk : x.E k = 0) :
    Orthogonal N (nonNegative N k x) ∧ (nonNegative N k x).E = x.E ∧
      (nonNegative N k x).product N = x.product N := by
  rw [nonNegative]
  split_ifs with hneg
  · have hV : ∀ y < N, ∀ q, (if q = k ∧ y < N then -x.V (q, y) else x.V (q, y)) =
        if q = k then -x.V (q, y) else x.V (q, y) := by
      intro y hy q
      simp only [hy, and_true]
    refine ⟨⟨hx.u, (hx.v.neg k).congr fun y hy => funext fun q => hV y hy q⟩, rfl, ?_⟩
    ext r y
    refine (product_apply ?_ r y).trans (Eq.trans ?_ (product_apply hE₀ r y).symm)
    · exact hE₀
    refine Finset.sum_congr rfl fun q _ => ?_
    dsimp only
    rw [hV y y.isLt, column, column]
    rcases eq_or_ne q k with rfl | hne
    · rw [if_pos rfl, Function.update_self, hk]
      ring
    · rw [if_neg hne, Function.update_of_ne hne]
  · exact ⟨hx, rfl, rfl⟩

def Cancels (an : ℝ) (x : Svd ℝ) (k : ℕ) : Prop :=
  (search an x k).split ∧ 0 < (search an x k).l

/-- If there is, the diagonal matches it. -/
def Balanced (an : ℝ) (x : Svd ℝ) (k : ℕ) : Prop :=
  Cancels an x k → Matched x k (search an x k).l 1

/-- The first part of a round. -/
noncomputable def splitOff (tiny ε : ℝ) (N : ℕ) (an : ℝ) (k : ℕ) (x : Svd ℝ) : Svd ℝ :=
  if (search an x k).split then
    cancel (reals tiny ε) N an (search an x k).n
      (List.range' (search an x k).l (k + 1 - (search an x k).l)) 0 1 x
  else x

/-- The block after the first part: it has no zeros, and nothing is before it. -/
structure Ready (N : ℕ) (an : ℝ) (k : ℕ) (x y : Svd ℝ) : Prop where
  orthogonal : Orthogonal N y
  zero : y.E 0 = 0
  before : y.E (search an x k).l = 0
  above : ∀ q, (search an x k).l < q → q ≤ k → y.E q ≠ 0
  diag : ∀ q, (search an x k).l ≤ q → q < k → y.S q ≠ 0
  behind : ∀ q, k < q → y.E q = x.E q
  product : (k + 1 < N → x.E (k + 1) = 0) → (y.product N = x.product N ↔ Balanced an x k)

variable (tiny ε) in
theorem splitOff_ready (an : ℝ) (hx : Orthogonal N x) (hE₀ : x.E 0 = 0) (hk : k < N) :
    Ready N an k x (splitOff tiny ε N an k x) := by
  have hblock := search_spec an x k
  obtain ⟨hsplit, hl⟩ | ⟨hsplit, hl, hE, hS⟩ | ⟨hsplit, hl, hE⟩ := hblock.zero
  · have hsame : splitOff tiny ε N an k x = x := by
      rw [splitOff, if_pos hsplit, hl, Nat.sub_zero, range'_succ, cancel]
      have hf : negligible an (-1 * x.E 0) := negligible_iff.mpr (by rw [hE₀, mul_zero])
      have hupdate : Function.update x.E 0 (x.E 0 * 0) = x.E := by
        rw [mul_zero, ← hE₀, Function.update_eq_self]
      simp only [hf, if_true, hupdate]
    rw [hsame]
    exact ⟨hx, hE₀, hl ▸ hE₀, hblock.above, hblock.diag, fun _ _ => rfl,
      fun _ => ⟨fun _ hcancel => absurd hcancel.2 (by omega), fun _ => rfl⟩⟩
  · have hn := hblock.before
    have hle := hblock.le
    have hstart : Cancelling N k (search an x k).n (search an x k).l 0 1 x := by
      refine ⟨by omega, hk, fun _ => rfl, fun _ => by omega, hE₀, hS, fun _ => one_ne_zero,
        fun q hq hqk => ?_, hblock.diag, hx.u⟩
      rcases Nat.eq_or_lt_of_le hq with rfl | hlt
      · exact hE
      · exact hblock.above q hlt hqk
    obtain ⟨hdone, hiff⟩ := cancel_spec tiny ε an (k + 1 - (search an x k).l) (by omega) hstart
    have hpending : ∀ u, ∀ q, pending (search an x k).n (search an x k).l 0 1 u x.S x.E q =
        column u x.S x.E q := by
      intro u q
      rcases eq_or_ne q (search an x k).l with rfl | hne
      · rw [pending_self, column, hn]
        ring
      · exact pending_of_ne hne
    simp only [hpending] at hiff
    have heq : splitOff tiny ε N an k x = cancel (reals tiny ε) N an (search an x k).n
      (range' (search an x k).l (k + 1 - (search an x k).l)) 0 1 x := by
      rw [splitOff, if_pos hsplit]
    rw [← heq] at hdone hiff
    have hzero := (hdone.otherE 0 (.inl hl)).trans hE₀
    refine ⟨⟨hdone.frame, hdone.V ▸ hx.v⟩, hzero, (hdone.head hle).trans (mul_zero _), hdone.above,
      fun q hq hqk => hdone.diag q hq hqk.le, fun q hq => hdone.otherE q (.inr hq), fun hlast => ?_⟩
    rw [product_eq_iff hdone.V (hdone.V ▸ hx.v) hzero hE₀, hiff hlast]
    exact ⟨fun h _ => h, fun h => h ⟨hsplit, hl⟩⟩
  · have hsame : splitOff tiny ε N an k x = x := by
      rw [splitOff, hsplit]
      rfl
    rw [hsame]
    exact ⟨hx, hE₀, hE, hblock.above, hblock.diag, fun _ _ => rfl,
      fun _ => ⟨fun _ hcancel => absurd hcancel.1 (by simp [hsplit]), fun _ => rfl⟩⟩

/-! ## One round -/

variable (tiny ε) in
/-- **A round.** -/
theorem iteration_spec (an : ℝ) (hx : Orthogonal N x) (hE₀ : x.E 0 = 0) (hk : k < N) :
    Orthogonal N (iteration (reals tiny ε) N an k x).1 ∧
      (iteration (reals tiny ε) N an k x).1.E 0 = 0 ∧
      (∀ q, k < q → (iteration (reals tiny ε) N an k x).1.E q = x.E q) ∧
      ((iteration (reals tiny ε) N an k x).2 → (iteration (reals tiny ε) N an k x).1.E k = 0) ∧
      ((k + 1 < N → x.E (k + 1) = 0) →
        ((iteration (reals tiny ε) N an k x).1.product N = x.product N ↔ Balanced an x k)) := by
  have hready := splitOff_ready tiny ε an hx hE₀ hk
  have hiteration : iteration (reals tiny ε) N an k x =
      if (search an x k).l = k then (nonNegative N k (splitOff tiny ε N an k x), true)
      else (qrSweep (reals tiny ε) N (search an x k).l k
        (shift (reals tiny ε) (splitOff tiny ε N an k x) (search an x k).l k)
        (splitOff tiny ε N an k x), false) := rfl
  rw [hiteration]
  generalize splitOff tiny ε N an k x = y at hready
  split_ifs with hl
  · have hlast : y.E k = 0 := hl ▸ hready.before
    obtain ⟨horth, hE, hprod⟩ := nonNegative_spec hready.orthogonal hready.zero hlast
    refine ⟨horth, ?_, ?_, ?_, ?_⟩
    · rw [hE, hready.zero]
    · intro q hq
      rw [hE, hready.behind q hq]
    · intro _
      rw [hE, hlast]
    · intro hbehind
      rw [hprod, hready.product hbehind]
  · have hlt : (search an x k).l < k := lt_of_le_of_ne (search_spec an x k).le hl
    obtain ⟨horth, hzero, hE, hprod⟩ := qrSweep_spec tiny ε hready.orthogonal
      hready.zero hready.before hlt hk hready.above hready.diag
      (shift (reals tiny ε) y (search an x k).l k)
    refine ⟨horth, hzero, fun q hq => (hE q hq).trans (hready.behind q hq), fun h => ?_, ?_⟩
    · cases h
    · intro hbehind
      have hbehind' := fun hN => (hready.behind _ (Nat.lt_succ_self k)).trans (hbehind hN)
      rw [hprod hbehind', hready.product hbehind]

/-! ## The loops -/

/-- The states before a round: the singular value, the number of the round and what the
function works on. -/
inductive Before {V : Type*} [Field V] [LinearOrder V] (prec : Precision V) (N : ℕ) (x₀ : Svd V) :
    ℕ → ℕ → Svd V → Prop
  | start : 0 < N → Before prec N x₀ (N - 1) 0 x₀
  | again {k its : ℕ} {x : Svd V} : Before prec N x₀ k its x →
      (iteration prec N (largest N x₀) k x).2 = false → its < maxIters →
      Before prec N x₀ k (its + 1) (iteration prec N (largest N x₀) k x).1
  | next {k its : ℕ} {x : Svd V} : Before prec N x₀ (k + 1) its x →
      (iteration prec N (largest N x₀) (k + 1) x).2 ∨ its = maxIters →
      Before prec N x₀ k 0 (iteration prec N (largest N x₀) (k + 1) x).1

section Loops

variable {V : Type*} [Field V] [LinearOrder V] {prec : Precision V} {x₀ : Svd V}

theorem iterations_last {k its m : ℕ} {x : Svd V} (h : Before prec N x₀ k its x)
    (hm : its + m = maxIters) : ∃ its' x', Before prec N x₀ k its' x' ∧
      ((iteration prec N (largest N x₀) k x').2 ∨ its' = maxIters) ∧
      iterations prec N (largest N x₀) k (m + 1) x = (iteration prec N (largest N x₀) k x').1 := by
  induction m generalizing its x with
  | zero =>
    refine ⟨its, x, h, .inr hm, ?_⟩
    simp only [iterations, ite_self]
  | succ m ih =>
    rw [iterations]
    cases hlast : (iteration prec N (largest N x₀) k x).2 with
    | true => exact ⟨its, x, h, .inl hlast, rfl⟩
    | false =>
      obtain ⟨its', x', hbefore, hend, heq⟩ := ih (h.again hlast (by omega)) (by omega)
      exact ⟨its', x', hbefore, hend, heq⟩

variable (prec x₀) in
/-- **The function returns what the last round leaves behind.** -/
theorem diagonalizeSvd_last (hN : 0 < N) : ∃ its x, Before prec N x₀ 0 its x ∧
    ((iteration prec N (largest N x₀) 0 x).2 ∨ its = maxIters) ∧
    diagonalizeSvd prec N x₀ = (iteration prec N (largest N x₀) 0 x).1 := by
  have hloop : ∀ (k : ℕ) (x : Svd V), Before prec N x₀ k 0 x →
      ∃ its x', Before prec N x₀ 0 its x' ∧
        ((iteration prec N (largest N x₀) 0 x').2 ∨ its = maxIters) ∧
        (List.range (k + 1)).reverse.foldl
          (fun x k => iterations prec N (largest N x₀) k (maxIters + 1) x) x =
            (iteration prec N (largest N x₀) 0 x').1 := by
    intro k
    induction k with
    | zero =>
      intro x h
      exact iterations_last h (Nat.zero_add _)
    | succ k ih =>
      intro x h
      obtain ⟨its, x', hbefore, hend, heq⟩ := iterations_last h (Nat.zero_add _)
      rw [range_succ, reverse_append, reverse_singleton, singleton_append, foldl_cons, heq]
      exact ih _ (hbefore.next hend)
  obtain ⟨n, rfl⟩ : ∃ n, N = n + 1 := ⟨N - 1, by omega⟩
  exact hloop n x₀ (.start hN)

end Loops

/-! ## All rounds -/

section Run

variable {x₀ : Svd ℝ} {its : ℕ}

theorem Before.orthogonal (h₀ : Orthogonal N x₀) (hE₀ : x₀.E 0 = 0)
    (h : Before (reals tiny ε) N x₀ k its x) : k < N ∧ Orthogonal N x ∧ x.E 0 = 0 := by
  induction h with
  | start hN => exact ⟨by omega, h₀, hE₀⟩
  | again _ _ _ ih =>
    obtain ⟨hk, hx, hE⟩ := ih
    obtain ⟨hx', hE', -⟩ := iteration_spec tiny ε (largest N x₀) hx hE hk
    exact ⟨hk, hx', hE'⟩
  | next _ _ ih =>
    obtain ⟨hk, hx, hE⟩ := ih
    obtain ⟨hx', hE', -⟩ := iteration_spec tiny ε (largest N x₀) hx hE hk
    exact ⟨by omega, hx', hE'⟩

/-- If all loops converge, the rows behind `k` are split off. -/
theorem Before.behind (h₀ : Orthogonal N x₀) (hE₀ : x₀.E 0 = 0)
    (hconv : ∀ k x, Before (reals tiny ε) N x₀ k maxIters x →
      (iteration (reals tiny ε) N (largest N x₀) k x).2)
    (h : Before (reals tiny ε) N x₀ k its x) (hk : k + 1 < N) : x.E (k + 1) = 0 := by
  induction h with
  | start hN => omega
  | again hx _ _ ih =>
    obtain ⟨hkN, horth, hE⟩ := hx.orthogonal h₀ hE₀
    obtain ⟨-, -, hsame, -⟩ := iteration_spec tiny ε (largest N x₀) horth hE hkN
    exact (hsame _ (Nat.lt_succ_self _)).trans (ih hk)
  | next hx hend _ =>
    obtain ⟨hkN, horth, hE⟩ := hx.orthogonal h₀ hE₀
    obtain ⟨-, -, -, hlast, -⟩ := iteration_spec tiny ε (largest N x₀) horth hE hkN
    rcases hend with hend | rfl
    · exact hlast hend
    · exact hlast (hconv _ _ hx)

/-- The whole function keeps the product if all loops converge and all entries that are
cancelled are matched. -/
theorem diagonalizeSvd_product (h₀ : Orthogonal N x₀) (hE₀ : x₀.E 0 = 0)
    (hconv : ∀ k x, Before (reals tiny ε) N x₀ k maxIters x →
      (iteration (reals tiny ε) N (largest N x₀) k x).2)
    (hmatch : ∀ k its x, Before (reals tiny ε) N x₀ k its x → Balanced (largest N x₀) x k) :
    (diagonalizeSvd (reals tiny ε) N x₀).product N = x₀.product N := by
  have hround : ∀ {k its x}, Before (reals tiny ε) N x₀ k its x →
      (iteration (reals tiny ε) N (largest N x₀) k x).1.product N = x.product N := by
    intro k its x h
    obtain ⟨hk, hx, hE⟩ := h.orthogonal h₀ hE₀
    obtain ⟨-, -, -, -, hprod⟩ := iteration_spec tiny ε (largest N x₀) hx hE hk
    exact (hprod (h.behind h₀ hE₀ hconv)).mpr (hmatch k its x h)
  have hall : ∀ {k its x}, Before (reals tiny ε) N x₀ k its x → x.product N = x₀.product N := by
    intro k its x h
    induction h with
    | start _ => rfl
    | again hx _ _ ih => exact (hround hx).trans ih
    | next hx _ ih => exact (hround hx).trans ih
  rcases Nat.eq_zero_or_pos N with rfl | hN
  · rfl
  · obtain ⟨its, x, h, -, heq⟩ := diagonalizeSvd_last (reals tiny ε) x₀ hN
    rw [heq, hround h, hall h]

/-! ## A zero on the diagonal -/

/-- **Every round keeps U and V' orthogonal.**  If the block is split off from the rows
behind it, the round keeps the product iff the diagonal matches an entry that is
cancelled. -/
theorem diagonalizeSvd_round (hU : square N x₀.U ∈ orthogonalGroup (Fin N) ℝ)
    (hV : square N x₀.V ∈ orthogonalGroup (Fin N) ℝ) (hE : x₀.E 0 = 0)
    (h : Before (reals tiny ε) N x₀ k its x) :
    square N (iteration (reals tiny ε) N (largest N x₀) k x).1.U ∈
        orthogonalGroup (Fin N) ℝ ∧
      square N (iteration (reals tiny ε) N (largest N x₀) k x).1.V ∈ orthogonalGroup (Fin N) ℝ ∧
      ((k + 1 < N → x.E (k + 1) = 0) →
        ((iteration (reals tiny ε) N (largest N x₀) k x).1.product N = x.product N ↔
          Balanced (largest N x₀) x k)) := by
  obtain ⟨hk, hx, hE₀⟩ := h.orthogonal ⟨frame_columns_iff.mpr hU, frame_rows_iff.mpr hV⟩ hE
  obtain ⟨horth, -, -, -, hprod⟩ := iteration_spec tiny ε (largest N x₀) hx hE₀ hk
  exact ⟨frame_columns_iff.mp horth.u, frame_rows_iff.mp horth.v, hprod⟩

end Run

noncomputable def ofEntries (S E : ℕ → ℝ) : Svd ℝ :=
  ⟨fun q => if q.1 = q.2 then 1 else 0, S, E, fun q => if q.1 = q.2 then 1 else 0⟩

theorem square_eye : square N (fun q => if q.1 = q.2 then (1 : ℝ) else 0) = 1 := by
  ext i j
  simp [square, Matrix.one_apply, Fin.ext_iff]

noncomputable def singular : Svd ℝ :=
  ofEntries (fun q => if q = 1 then 4 else 0) fun q => if q = 1 then 3 else 0

/-- The round for this matrix is the cancellation of the 3, by a rotation with the cosine
-3/5 and the sine 4/5. -/
theorem iteration_singular (an : ℝ) : (iteration (reals 1 1) 2 an 1 singular).1 =
    cancelRound 1 1 2 0 1 0 1 singular ∧ angle 1 1 1 1 singular = (5, -3 / 5, 4 / 5) := by
  have hsearch : search an singular 1 = ⟨1, true, 0⟩ := by
    rw [search, if_neg, if_pos]
    · exact negligible_iff.mpr rfl
    · exact fun h => three_ne_zero (negligible_iff.mp h)
  have hangle : angle 1 1 1 1 singular = (5, -3 / 5, 4 / 5) := by
    have hroot : √((-1 * 3 : ℝ) ^ 2 + 4 ^ 2) = 5 := by
      rw [Real.sqrt_eq_iff_mul_self_eq_of_pos] <;> norm_num
    show givens (reals 1 1) (-1 * 3) 4 = _
    rw [givens, xhypot_eq, hroot]
    norm_num
  have hcancel : cancel (reals 1 1) 2 an 0 (range' 1 1) 0 1 singular =
      cancelRound 1 1 2 0 1 0 1 singular := by
    have hf : -1 * singular.E 1 ≠ 0 := mul_ne_zero (by norm_num) three_ne_zero
    rw [range'_one, cancel_cons hf]
    rfl
  have hpositive : ¬(cancelRound 1 1 2 0 1 0 1 singular).S 1 < 0 := by
    rw [cancelRound, hangle]
    norm_num
  refine ⟨?_, hangle⟩
  have hiteration : iteration (reals 1 1) 2 an 1 singular =
      (nonNegative 2 1 (cancelRound 1 1 2 0 1 0 1 singular), true) := by
    simp only [iteration, hsearch, if_true, Nat.add_sub_cancel, hcancel]
  rw [hiteration, nonNegative, if_neg hpositive]

/-- **The cancellation changes the product**: the rows become (0, -4) and (0, -3). -/
theorem diagonalizeSvd_round_singular :
    square 2 singular.U ∈ orthogonalGroup (Fin 2) ℝ ∧
      square 2 singular.V ∈ orthogonalGroup (Fin 2) ℝ ∧ singular.E 0 = 0 ∧
      Before (reals 1 1) 2 singular 1 0 singular ∧ singular.product 2 = !![0, 3; 0, 4] ∧
      (iteration (reals 1 1) 2 (largest 2 singular) 1 singular).1.product 2 = !![0, -4; 0, -3] := by
  have hone : square 2 singular.U ∈ orthogonalGroup (Fin 2) ℝ := by
    rw [singular, ofEntries, square_eye]
    exact one_mem _
  obtain ⟨hround, hangle⟩ := iteration_singular (largest 2 singular)
  refine ⟨hone, hone, rfl, .start Nat.two_pos, ?_, ?_⟩
  · ext r y
    rw [product_apply rfl]
    fin_cases r <;> fin_cases y <;> simp [column, singular, ofEntries]
  · rw [hround]
    ext r y
    have hU := givensApplyU_apply zero_ne_one (-3 / 5) (4 / 5) singular.U r.isLt
    rw [product_apply rfl, cancelRound, hangle]
    rw [hU]
    fin_cases r <;> fin_cases y <;> simp [column, singular, ofEntries, turn]

noncomputable def regular : Svd ℝ :=
  ofEntries (fun q => if q = 0 then 2 else 4) fun q => if q = 1 then 3 else 0

theorem diagonalizeSvd_round_regular :
    square 2 regular.U ∈ orthogonalGroup (Fin 2) ℝ ∧
      square 2 regular.V ∈ orthogonalGroup (Fin 2) ℝ ∧ regular.E 0 = 0 ∧
      Before (reals 1 1) 2 regular 1 0 regular ∧
      (iteration (reals 1 1) 2 (largest 2 regular) 1 regular).1.product 2 = regular.product 2 := by
  have hone : square 2 regular.U ∈ orthogonalGroup (Fin 2) ℝ := by
    rw [regular, ofEntries, square_eye]
    exact one_mem _
  have hsearch : search (largest 2 regular) regular 1 = ⟨0, true, 0⟩ := by
    rw [search, if_neg, if_neg, search]
    · exact fun h => two_ne_zero (negligible_iff.mp h)
    · exact fun h => three_ne_zero (negligible_iff.mp h)
  have hbalanced : Balanced (largest 2 regular) regular 1 := by
    intro hcancel
    rw [Cancels, hsearch] at hcancel
    exact absurd hcancel.2 (lt_irrefl 0)
  have hstart : Before (reals 1 1) 2 regular 1 0 regular := .start Nat.two_pos
  exact ⟨hone, hone, rfl, hstart,
    ((diagonalizeSvd_round hone hone rfl hstart).2.2 fun h => absurd h (by omega)).mpr hbalanced⟩

/-- A diagonal with a zero that matches the entry beside it. -/
noncomputable def matched : Svd ℝ :=
  ofEntries (fun q => if q = 1 then 4 else 0) fun q => if q = 1 then -4 else 0

theorem search_matched (an : ℝ) : search an matched 1 = ⟨1, true, 0⟩ := by
  rw [search, if_neg, if_pos]
  · exact negligible_iff.mpr rfl
  · exact fun h => neg_ne_zero.mpr four_ne_zero (negligible_iff.mp h)

theorem iteration_last {an : ℝ} (h : (search an x k).l = k) :
    (iteration (reals tiny ε) N an k x).2 := by
  simp only [iteration, h, if_true]

/-- Each singular value takes one round; the first one cancels the entry. -/
theorem diagonalizeSvd_product_matched :
    (diagonalizeSvd (reals 1 1) 2 matched).product 2 = matched.product 2 := by
  have hone : square 2 matched.U ∈ orthogonalGroup (Fin 2) ℝ := by
    rw [matched, ofEntries, square_eye]
    exact one_mem _
  have hbefore : ∀ {k its x}, Before (reals 1 1) 2 matched k its x →
      its = 0 ∧ (k = 1 ∧ x = matched ∨ k = 0) := by
    intro k its x h
    induction h with
    | start => exact ⟨rfl, .inl ⟨rfl, rfl⟩⟩
    | again _ hlast _ ih =>
      obtain ⟨-, ⟨rfl, rfl⟩ | rfl⟩ := ih
      · rw [iteration_last (by rw [search_matched])] at hlast
        cases hlast
      · cases hlast
    | next _ _ ih =>
      obtain ⟨-, ⟨hk, -⟩ | hk⟩ := ih
      · exact ⟨rfl, .inr (Nat.succ_injective hk)⟩
      · cases hk
  refine diagonalizeSvd_product ⟨frame_columns_iff.mpr hone, frame_rows_iff.mpr hone⟩ rfl ?_ ?_
  · intro k x h
    cases (hbefore h).1
  · intro k its x h
    obtain ⟨-, ⟨rfl, rfl⟩ | rfl⟩ := hbefore h
    · intro _ q hq hqk
      rw [search_matched] at hq ⊢
      obtain rfl : q = 1 := le_antisymm hqk hq
      norm_num [matched, ofEntries]
    · exact fun hcancel => absurd hcancel.2 (lt_irrefl 0)

end Qucs.Linear.Svd
