/-
# The cancellation turns by the wrong angle

The row n has a zero on its diagonal, and E (l) with l = n + 1 is the only entry in it.
Turning the row n against the rows l, l + 1, ..., k moves this entry to the right and
out of the block. With -f for the entry and g for the diagonal of the row i, the
rotation that does this has its cosine along g and its sine along f. The source calls
`givens (f, g, c, s)`, where the cosine is along f and the sine along g.

So the column i of U B, which should not change, changes by

    (f - g) (U (r, i) + U (r, n))

(`pending_round`), and since the columns of U are orthonormal, the product is kept **only
if f = g in every round** (`cancel_spec`). This is a condition on S and E
(`Matched`): the signs and the sizes of the entries of the block have to fit.
U stays orthogonal in any case.
-/
import Qucs.Linear.SvdProduct

namespace Qucs.Linear.Svd

open Lib.Rotations
open Function (update update_of_ne update_self)
open Finset (range)

variable {tiny ε : ℝ} {N : ℕ}

/-! ## One round -/

/-- U B before round `i`: what is left of E (i) in its row, and the part of it that has
been turned into the row `n`. -/
def pending (n i : ℕ) (c s : ℝ) (u S E : ℕ → ℝ) (q : ℕ) : ℝ :=
  u q * S q + u (q - 1) * (if q = i then E q * c else E q) + if q = i then u n * (s * E q) else 0

variable {n i : ℕ} {c s : ℝ} {u S E : ℕ → ℝ}

theorem pending_self :
    pending n i c s u S E i = u i * S i + u (i - 1) * (E i * c) + u n * (s * E i) := by
  rw [pending, if_pos rfl, if_pos rfl]

theorem pending_of_ne {n i q : ℕ} (h : q ≠ i) : pending n i c s u S E q = column u S E q := by
  rw [pending, if_neg h, if_neg h, add_zero, column]

/-- **What a round changes.** -/
theorem pending_round {c s z c' s' : ℝ} (hn : n < i)
    (hfirst : i = n + 1 → c = 0) (hlater : n + 1 < i → E (n + 1) = 0) (hE : E 0 = 0)
    (hS : S n = 0) (hc : c' * z = -s * E i) (hs : s' * z = S i)
    (hcs : c' ^ 2 + s' ^ 2 = 1) (q : ℕ) :
    pending n (i + 1) c' s' (turn n i c' s' u) (update S i z) (update E i (E i * c)) q =
    pending n i c s u S E q + if q = i then (-s * E i - S i) * (u i + u n) else 0 := by
  have hne : n ≠ i := hn.ne
  rcases eq_or_ne q (i + 1) with rfl | h₁
  · have hi := Nat.succ_ne_self i
    rw [pending_self, pending_of_ne hi, column, if_neg hi, Nat.add_sub_cancel, turn_right hne,
      turn_left, turn_of_ne (by omega) hi, update_of_ne hi, update_of_ne hi]
    linear_combination (u i * E (i + 1)) * hcs
  rw [pending_of_ne h₁, column]
  rcases eq_or_ne q i with rfl | h₂
  · rw [pending_self, if_pos rfl, turn_right hne, update_self, update_self]
    have hrest : turn n q c' s' u (q - 1) * (E q * c) = u (q - 1) * (E q * c) := by
      rcases Nat.eq_or_lt_of_le (Nat.succ_le_of_lt hn) with heq | hlt
      · rw [hfirst heq.symm, mul_zero, mul_zero, mul_zero]
      · rw [turn_of_ne (by omega) (by omega)]
    rw [hrest]
    linear_combination u q * hc - u n * hs
  rw [pending_of_ne h₂, if_neg h₂, add_zero, column, update_of_ne h₂, update_of_ne h₂]
  rcases eq_or_ne q n with rfl | h₃
  · rw [hS, mul_zero, mul_zero]
    congr 1
    rcases Nat.eq_zero_or_pos q with rfl | hpos
    · rw [hE, mul_zero, mul_zero]
    · rw [turn_of_ne (by omega) (by omega)]
  · rw [turn_of_ne h₃ h₂]
    congr 1
    rcases eq_or_ne q (n + 1) with rfl | h₄
    · rw [hlater (by omega), mul_zero, mul_zero]
    · rw [turn_of_ne (by omega) (by omega)]

/-! ## All rounds -/

/-- Before round `i`. -/
structure Cancelling (N k n i : ℕ) (c s : ℝ) (x : Svd ℝ) : Prop where
  row : n < i
  size : k < N
  first : i = n + 1 → c = 0
  later : n + 1 < i → x.E (n + 1) = 0
  zero : x.E 0 = 0
  diagonal : x.S n = 0
  sine : i ≤ k → s ≠ 0
  above : ∀ q, i ≤ q → q ≤ k → x.E q ≠ 0
  diag : ∀ q, i ≤ q → q < k → x.S q ≠ 0
  frame : Frame N fun r q => x.U (r, q)

noncomputable def angle (tiny ε s : ℝ) (i : ℕ) (x : Svd ℝ) : ℝ × ℝ × ℝ :=
  givens (reals tiny ε) (-s * x.E i) (x.S i)

noncomputable def cancelRound (tiny ε : ℝ) (N n i : ℕ) (c s : ℝ) (x : Svd ℝ) : Svd ℝ :=
  { x with
    E := update x.E i (x.E i * c)
    S := update x.S i (angle tiny ε s i x).1
    U := givensApplyU N n i (angle tiny ε s i x).2.1 (angle tiny ε s i x).2.2 x.U }

theorem cancel_cons {an : ℝ} {is : List ℕ} {x : Svd ℝ} (h : -s * x.E i ≠ 0) :
    cancel (reals tiny ε) N an n (i :: is) c s x = cancel (reals tiny ε) N an n is
      (angle tiny ε s i x).2.1 (angle tiny ε s i x).2.2 (cancelRound tiny ε N n i c s x) := by
  exact if_neg fun hf => h (negligible_iff.mp hf)

namespace Cancelling

variable {k n i : ℕ} {c s : ℝ} {x : Svd ℝ}

theorem ne_zero (h : Cancelling N k n i c s x) (hi : i ≤ k) : -s * x.E i ≠ 0 :=
  mul_ne_zero (neg_ne_zero.mpr (h.sine hi)) (h.above i le_rfl hi)

variable (tiny ε) in
theorem angle_spec (h : Cancelling N k n i c s x) (hi : i ≤ k) :
    0 < (angle tiny ε s i x).1 ∧
      (angle tiny ε s i x).2.1 * (angle tiny ε s i x).1 = -s * x.E i ∧
      (angle tiny ε s i x).2.2 * (angle tiny ε s i x).1 = x.S i ∧
      (angle tiny ε s i x).2.1 ^ 2 + (angle tiny ε s i x).2.2 ^ 2 = 1 :=
  givens_spec tiny ε (.inl (h.ne_zero hi))

variable (tiny ε) in
theorem round (h : Cancelling N k n i c s x) (hi : i ≤ k) :
    Cancelling N k n (i + 1) (angle tiny ε s i x).2.1 (angle tiny ε s i x).2.2
      (cancelRound tiny ε N n i c s x) := by
  obtain ⟨hz, -, hs, hcs⟩ := h.angle_spec tiny ε hi
  have hrow := h.row
  have hsize := h.size
  constructor
  case row => omega
  case size => exact h.size
  case first =>
    intro heq
    omega
  case later =>
    intro _
    rcases eq_or_ne (n + 1) i with heq | hne
    · refine (congrArg _ heq).trans ((update_self ..).trans ?_)
      rw [h.first heq.symm, mul_zero]
    · exact (update_of_ne hne ..).trans (h.later (by omega))
  case zero => exact (update_of_ne (by omega) ..).trans h.zero
  case diagonal => exact (update_of_ne (by omega) ..).trans h.diagonal
  case sine =>
    intro hk hzero
    rw [hzero, zero_mul] at hs
    exact h.diag i le_rfl (by omega) hs.symm
  case above =>
    intro q hq hqk
    refine ne_of_eq_of_ne (update_of_ne (by omega) ..) (h.above q (by omega) hqk)
  case diag =>
    intro q hq hqk
    refine ne_of_eq_of_ne (update_of_ne (by omega) ..) (h.diag q (by omega) hqk)
  case frame => exact frame_givensApplyU h.frame (by omega) (by omega) hrow.ne hcs

variable (tiny ε) in
/-- The columns of U B after a round. -/
theorem pending_eq (h : Cancelling N k n i c s x) (hi : i ≤ k) {r : ℕ} (hr : r < N) (q : ℕ) :
    pending n (i + 1) (angle tiny ε s i x).2.1 (angle tiny ε s i x).2.2
      (fun q => (cancelRound tiny ε N n i c s x).U (r, q)) (cancelRound tiny ε N n i c s x).S
      (cancelRound tiny ε N n i c s x).E q =
    pending n i c s (fun q => x.U (r, q)) x.S x.E q +
      if q = i then (-s * x.E i - x.S i) * (x.U (r, i) + x.U (r, n)) else 0 := by
  obtain ⟨-, hc, hs, hcs⟩ := h.angle_spec tiny ε hi
  have hturn : (fun q => (cancelRound tiny ε N n i c s x).U (r, q)) =
      turn n i (angle tiny ε s i x).2.1 (angle tiny ε s i x).2.2 fun q => x.U (r, q) :=
    givensApplyU_apply h.row.ne _ _ x.U hr
  rw [hturn]
  exact pending_round h.row h.first h.later h.zero h.diagonal hc hs hcs q

end Cancelling

/-- What the whole cancellation leaves behind. -/
structure Cancelled (N k n i : ℕ) (c s : ℝ) (x y : Svd ℝ) : Prop where
  V : y.V = x.V
  frame : Frame N fun r q => y.U (r, q)
  otherS : ∀ q, q < i ∨ k < q → y.S q = x.S q
  otherE : ∀ q, q < i ∨ k < q → y.E q = x.E q
  head : i ≤ k → y.E i = x.E i * c
  above : ∀ q, i < q → q ≤ k → y.E q ≠ 0
  diag : ∀ q, i ≤ q → q ≤ k → y.S q ≠ 0
  columns : ∀ r < N, ∀ q < i, column (fun q => y.U (r, q)) y.S y.E q =
    pending n i c s (fun q => x.U (r, q)) x.S x.E q

/-- From round `i` on, the two sides of the rotations are equal. -/
def Matched (x : Svd ℝ) (k i : ℕ) (s : ℝ) : Prop :=
  ∀ q, i ≤ q → q ≤ k → x.S q = -(if q = i then s else sign (x.S (q - 1)) / √2) * x.E q

theorem div_sqrt_eq {g : ℝ} (hg : g ≠ 0) : g / √(g ^ 2 + g ^ 2) = sign g / √2 := by
  have habs : |g| ≠ 0 := abs_ne_zero.mpr hg
  rw [← two_mul, Real.sqrt_mul zero_le_two, Real.sqrt_sq_eq_abs]
  nth_rewrite 1 [← sign_mul_abs g]
  rw [mul_div_mul_right _ _ habs]

variable (tiny ε) in
/-- The condition is passed on to the next round. -/
theorem Cancelling.matched_iff {k n i : ℕ} {x : Svd ℝ} (h : Cancelling N k n i c s x)
    (hi : i ≤ k) : Matched x k i s ↔ -s * x.E i = x.S i ∧
      Matched (cancelRound tiny ε N n i c s x) k (i + 1) (angle tiny ε s i x).2.2 := by
  have hS : ∀ q, i < q → (cancelRound tiny ε N n i c s x).S q = x.S q := fun q hq =>
    update_of_ne hq.ne' ..
  have hE : ∀ q, i < q → (cancelRound tiny ε N n i c s x).E q = x.E q := fun q hq =>
    update_of_ne hq.ne' ..
  have hsine : -s * x.E i = x.S i → (angle tiny ε s i x).2.2 = sign (x.S i) / √2 := by
    intro heq
    have hne : x.S i ≠ 0 := heq ▸ h.ne_zero hi
    rw [angle, givens, heq, xhypot_eq]
    exact div_sqrt_eq hne
  have hrest : -s * x.E i = x.S i → ∀ q, i + 1 ≤ q →
      ((cancelRound tiny ε N n i c s x).S q = -(if q = i + 1 then (angle tiny ε s i x).2.2
        else sign ((cancelRound tiny ε N n i c s x).S (q - 1)) / √2) *
          (cancelRound tiny ε N n i c s x).E q ↔
        x.S q = -(if q = i then s else sign (x.S (q - 1)) / √2) * x.E q) := by
    intro heq q hq
    rw [hS q hq, hE q hq, if_neg (by omega : q ≠ i)]
    rcases eq_or_ne q (i + 1) with rfl | hne
    · rw [if_pos rfl, hsine heq, Nat.add_sub_cancel]
    · rw [if_neg hne, hS (q - 1) (by omega)]
  constructor
  · intro hmatch
    have heq : -s * x.E i = x.S i := by
      have := hmatch i le_rfl hi
      rw [if_pos rfl] at this
      exact this.symm
    exact ⟨heq, fun q hq hqk => (hrest heq q hq).mpr (hmatch q (by omega) hqk)⟩
  · rintro ⟨heq, hmatch⟩ q hq hqk
    rcases eq_or_ne q i with rfl | hne
    · rw [if_pos rfl, heq]
    · exact (hrest heq q (by omega)).mp (hmatch q (by omega) hqk)

variable (tiny ε) in
/-- **The cancellation**: U stays orthogonal, the block has no zeros afterwards, and the
columns of U B are what they were iff all rounds match. -/
theorem cancel_spec (an : ℝ) {k n : ℕ} (m : ℕ) :
    ∀ {i : ℕ} {c s : ℝ} {x : Svd ℝ}, i + m = k + 1 → Cancelling N k n i c s x →
      Cancelled N k n i c s x (cancel (reals tiny ε) N an n (List.range' i m) c s x) ∧
      ((k + 1 < N → x.E (k + 1) = 0) →
        ((∀ r < N, ∀ q < N, column
            (fun q => (cancel (reals tiny ε) N an n (List.range' i m) c s x).U (r, q))
            (cancel (reals tiny ε) N an n (List.range' i m) c s x).S
            (cancel (reals tiny ε) N an n (List.range' i m) c s x).E q =
          pending n i c s (fun q => x.U (r, q)) x.S x.E q) ↔ Matched x k i s)) := by
  induction m with
  | zero =>
    intro i c s x hm h
    obtain rfl := hm
    have hcol : ∀ r, ∀ q < k + 1, column (fun q => x.U (r, q)) x.S x.E q =
        pending n (k + 1) c s (fun q => x.U (r, q)) x.S x.E q := fun r q hq =>
      (pending_of_ne hq.ne).symm
    refine ⟨?_, fun hlast => ⟨fun _ q h₁ h₂ => absurd h₂ (by omega), fun _ r _ q hq => ?_⟩⟩
    · exact ⟨rfl, h.frame, fun q _ => rfl, fun q _ => rfl, fun hk => absurd hk (by omega),
        fun q h₁ h₂ => absurd h₂ (by omega), fun q h₁ h₂ => absurd h₂ (by omega),
        fun r _ q hq => hcol r q hq⟩
    · rcases eq_or_ne q (k + 1) with rfl | hne
      · show column (fun q => x.U (r, q)) x.S x.E (k + 1) = _
        rw [pending_self, column, hlast hq]
        ring
      · exact (pending_of_ne hne).symm
  | succ m ih =>
    intro i c s x hm h
    have hi : i ≤ k := by omega
    rw [List.range'_succ, cancel_cons (h.ne_zero hi)]
    obtain ⟨hdone, hiff⟩ := ih (by omega) (h.round tiny ε hi)
    obtain ⟨hz, hc, -, -⟩ := h.angle_spec tiny ε hi
    have hcosine : (angle tiny ε s i x).2.1 ≠ 0 := by
      intro hzero
      rw [hzero, zero_mul] at hc
      exact h.ne_zero hi hc.symm
    generalize cancel (reals tiny ε) N an n (List.range' (i + 1) m) (angle tiny ε s i x).2.1
      (angle tiny ε s i x).2.2 (cancelRound tiny ε N n i c s x) = y at hdone hiff ⊢
    have hcolumn := fun r hr q hq => (hdone.columns r hr q hq).trans (h.pending_eq tiny ε hi hr q)
    constructor
    · constructor
      case V => exact hdone.V
      case frame => exact hdone.frame
      case otherS =>
        intro q hq
        refine (hdone.otherS q (by omega)).trans (update_of_ne (by omega) ..)
      case otherE =>
        intro q hq
        refine (hdone.otherE q (by omega)).trans (update_of_ne (by omega) ..)
      case head =>
        intro _
        exact (hdone.otherE i (by omega)).trans (update_self ..)
      case above =>
        intro q hq hqk
        rcases eq_or_ne q (i + 1) with rfl | hne
        · rw [hdone.head hqk]
          refine mul_ne_zero ?_ hcosine
          exact ne_of_eq_of_ne (update_of_ne (by omega) ..) (h.above _ (by omega) hqk)
        · exact hdone.above q (by omega) hqk
      case diag =>
        intro q hq hqk
        rcases eq_or_ne q i with rfl | hne
        · exact ne_of_eq_of_ne ((hdone.otherS q (by omega)).trans (update_self ..)) hz.ne'
        · exact hdone.diag q (by omega) hqk
      case columns =>
        intro r hr q hq
        rw [hcolumn r hr q (by omega), if_neg (by omega), add_zero]
    · intro hlast
      have hlast' : k + 1 < N → (cancelRound tiny ε N n i c s x).E (k + 1) = 0 := fun hN =>
        (update_of_ne (by omega) ..).trans (hlast hN)
      have hpending : -s * x.E i = x.S i → ∀ r < N, ∀ q,
          pending n (i + 1) (angle tiny ε s i x).2.1 (angle tiny ε s i x).2.2
            (fun q => (cancelRound tiny ε N n i c s x).U (r, q))
            (cancelRound tiny ε N n i c s x).S (cancelRound tiny ε N n i c s x).E q =
          pending n i c s (fun q => x.U (r, q)) x.S x.E q := by
        intro heq r hr q
        rw [h.pending_eq tiny ε hi hr, heq, sub_self, zero_mul, ite_self, add_zero]
      rw [h.matched_iff tiny ε hi, ← hiff hlast']
      constructor
      · intro hsame
        have heq : -s * x.E i = x.S i := by
          refine sub_eq_zero.mp (h.frame.eq_zero (by have := h.size; omega)
            (by have := h.row; have := h.size; omega) h.row.ne' fun r hr => ?_)
          have hcol := hcolumn r hr i (by omega)
          rw [if_pos rfl, hsame r hr i (by have := h.size; omega)] at hcol
          exact left_eq_add.mp hcol
        exact ⟨heq, fun r hr q hq => (hsame r hr q hq).trans (hpending heq r hr q).symm⟩
      · rintro ⟨heq, hsame⟩ r hr q hq
        exact (hsame r hr q hq).trans (hpending heq r hr q)

end Qucs.Linear.Svd
