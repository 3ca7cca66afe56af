/-
# The QR transformation keeps the product

The shift makes a first rotation from the right, which puts an entry below the
diagonal; a rotation from the left removes it and puts one beside the band; the next
rotation from the right removes that, and so on, until the end of the block. Before
round j the matrix is bidiagonal but for this entry (`bulge`), whose row j - 1 is

    ... 0  f  s E (j + 1)  0 ...

with f and s in the variables of the loop. Each round keeps the product
(`sum_bulge_round`), whatever the shift is: f counts only from the second round on.
At the end the entry would be in the column k + 1, so **E (k + 1) has to be zero**: the
block has to be split off from the rows behind it (`qrSweep_spec`).

No rotation is without an angle: in a block without zeros the entry beside the band
never vanishes (`Chasing.sine`).
-/
import Qucs.Linear.SvdProduct

namespace Qucs.Linear.Svd

open Lib.Rotations
open Function (update update_apply update_of_ne update_self)
open Finset (range)

variable {tiny ε : ℝ} {N : ℕ}

/-! ## One round -/

/-- The row before the row `j`, unless it is the first of the block. -/
def preceding (l j : ℕ) (u : ℕ → ℝ) : ℝ := if j = l then 0 else u (j - 1)

/-- U B before round `j`. -/
def bulge (l j : ℕ) (f a c s : ℝ) (u S E : ℕ → ℝ) (q : ℕ) : ℝ :=
  if q = j then u j * a + preceding l j u * f
  else if q = j + 1 then u q * S q + (u j * c + preceding l j u * s) * E q
  else u q * S q + u (q - 1) * (if q = l then 0 else E q)

section Bulge

variable {l j q : ℕ} {f a c s : ℝ} {u S E : ℕ → ℝ}

theorem bulge_self : bulge l j f a c s u S E j = u j * a + preceding l j u * f := if_pos rfl

theorem bulge_next : bulge l j f a c s u S E (j + 1) =
    u (j + 1) * S (j + 1) + (u j * c + preceding l j u * s) * E (j + 1) := by
  rw [bulge, if_neg (Nat.succ_ne_self j), if_pos rfl]

theorem bulge_of_ne (h : q ≠ j) (h' : q ≠ j + 1) :
    bulge l j f a c s u S E q = u q * S q + u (q - 1) * (if q = l then 0 else E q) := by
  rw [bulge, if_neg h, if_neg h']

/-- **A round keeps the sum**: the column `j` is finished, and the entry beside the
band is one row further down. -/
theorem sum_bulge_round {z d c₁ s₁ c₂ s₂ : ℝ} {v : ℕ → ℝ} (hl : l ≤ j) (hj : j + 1 < N)
    (hc₁ : c₁ * z = f) (hs₁ : s₁ * z = s * E (j + 1)) (hcs₁ : c₁ ^ 2 + s₁ ^ 2 = 1)
    (hc₂ : d * c₂ = a * c₁ + E (j + 1) * c * s₁) (hs₂ : d * s₂ = S (j + 1) * s₁)
    (hcs₂ : c₂ ^ 2 + s₂ ^ 2 = 1) :
    ∑ q ∈ range N, bulge l (j + 1)
        (c₂ * (E (j + 1) * c * c₁ - a * s₁) + s₂ * (S (j + 1) * c₁))
        (c₂ * (S (j + 1) * c₁) - s₂ * (E (j + 1) * c * c₁ - a * s₁)) c₂ s₂
        (turn j (j + 1) c₂ s₂ u) (update S j d) (update E j z) q * turn j (j + 1) c₁ s₁ v q =
      ∑ q ∈ range N, bulge l j f a c s u S E q * v q := by
  have hne := (Nat.succ_ne_self j).symm
  refine sum_two (by omega) hj hne ?_ fun q _ h₁ h₂ => ?_
  · have hbefore : turn j (j + 1) c₂ s₂ u (j - 1) * (if j = l then 0 else z) =
        preceding l j u * z := by
      rw [preceding]
      split_ifs with heq
      · rw [mul_zero, zero_mul]
      · rw [turn_of_ne (by omega) (by omega)]
    have hlast : preceding l (j + 1) (turn j (j + 1) c₂ s₂ u) = u j * c₂ + u (j + 1) * s₂ := by
      rw [preceding, if_neg (by omega), Nat.add_sub_cancel, turn_left]
    rw [bulge_of_ne hne (by omega), bulge_self, bulge_self, bulge_next, hlast,
      update_self, update_self, hbefore, turn_left, turn_right hne, turn_left,
      turn_right hne]
    generalize preceding l j u = w
    have hleft : (u j * c₂ + u (j + 1) * s₂) * d + w * z =
        (u j * a + w * f) * c₁ + (u (j + 1) * S (j + 1) + (u j * c + w * s) * E (j + 1)) * s₁ := by
      linear_combination u j * hc₂ + u (j + 1) * hs₂ - w * z * hcs₁ + w * c₁ * hc₁ + w * s₁ * hs₁
    have hright : (u (j + 1) * c₂ - u j * s₂) *
          (c₂ * (S (j + 1) * c₁) - s₂ * (E (j + 1) * c * c₁ - a * s₁)) +
        (u j * c₂ + u (j + 1) * s₂) * (c₂ * (E (j + 1) * c * c₁ - a * s₁) + s₂ * (S (j + 1) * c₁)) =
        (u (j + 1) * S (j + 1) + (u j * c + w * s) * E (j + 1)) * c₁ - (u j * a + w * f) * s₁ := by
      linear_combination (u (j + 1) * (S (j + 1) * c₁) +
        u j * (E (j + 1) * c * c₁ - a * s₁)) * hcs₂ + w * c₁ * hs₁ - w * s₁ * hc₁
    rw [hleft, hright]
    linear_combination ((u j * a + w * f) * v j +
      (u (j + 1) * S (j + 1) + (u j * c + w * s) * E (j + 1)) * v (j + 1)) * hcs₁
  · rw [turn_of_ne h₁ h₂]
    congr 1
    rw [bulge_of_ne h₁ h₂]
    rcases eq_or_ne q (j + 2) with rfl | h₃
    · rw [bulge_next, preceding, if_neg (by omega), if_neg (by omega), Nat.add_sub_cancel,
        turn_left, turn_right hne, turn_of_ne (by omega) (by omega),
        update_of_ne (by omega), update_of_ne (by omega)]
      show _ = u (j + 2) * S (j + 2) + u (j + 1) * E (j + 2)
      linear_combination (u (j + 1) * E (j + 2)) * hcs₂
    · rw [bulge_of_ne h₂ h₃, turn_of_ne h₁ h₂, update_of_ne h₁, update_of_ne h₁]
      congr 1
      split_ifs with heq
      · rw [mul_zero, mul_zero]
      · rw [turn_of_ne (by omega) (by omega)]

end Bulge

/-! ## All rounds -/

section Rounds

variable {l k j : ℕ} {x : Svd ℝ} {w : Chase ℝ}

/-- Before round `j` of a transformation that started with `x`. -/
structure Chasing (N l k j : ℕ) (x : Svd ℝ) (w : Chase ℝ) : Prop where
  orthogonal : Orthogonal N w.x
  otherS : ∀ q, q < l ∨ j < q → w.x.S q = x.S q
  otherE : ∀ q, q < l ∨ j < q → w.x.E q = x.E q
  sine : j < k → w.s ≠ 0
  sum : ∀ r < N, ∀ y < N,
    ∑ q ∈ range N, bulge l j w.f w.a w.c w.s (fun q => w.x.U (r, q)) w.x.S w.x.E q * w.x.V (q, y) =
      ∑ q ∈ range N, column (fun q => x.U (r, q)) x.S x.E q * x.V (q, y)

theorem chasing_start (hx : Orthogonal N x) (hl : x.E l = 0) (f : ℝ) :
    Chasing N l k l x ⟨x, f, x.S l, 1, 1⟩ := by
  refine ⟨hx, fun _ _ => rfl, fun _ _ => rfl, fun _ => one_ne_zero, fun r _ y _ => ?_⟩
  refine Finset.sum_congr rfl fun q _ => congrArg (· * _) ?_
  rcases eq_or_ne q l with rfl | h₁
  · rw [bulge_self, preceding, if_pos rfl, column, hl, mul_zero, zero_mul]
  rcases eq_or_ne q (l + 1) with rfl | h₂
  · rw [bulge_next, preceding, if_pos rfl, column, zero_mul, add_zero, mul_one, Nat.add_sub_cancel]
  · rw [bulge_of_ne h₁ h₂, if_neg h₁, column]

/-- The rotation from the left, which may be any if there is nothing to turn. -/
theorem arbitrary_spec (tiny ε : ℝ) (f h : ℝ) {c s : ℝ} (hcs : c ^ 2 + s ^ 2 = 1) :
    ∃ c' s',
      c' = (if xhypot (reals tiny ε) f h ≠ 0 then f * (1 / xhypot (reals tiny ε) f h) else c) ∧
      s' = (if xhypot (reals tiny ε) f h ≠ 0 then h * (1 / xhypot (reals tiny ε) f h) else s) ∧
      xhypot (reals tiny ε) f h * c' = f ∧ xhypot (reals tiny ε) f h * s' = h ∧
      c' ^ 2 + s' ^ 2 = 1 := by
  refine ⟨_, _, rfl, rfl, ?_⟩
  have hsq : xhypot (reals tiny ε) f h ^ 2 = f ^ 2 + h ^ 2 := by
    rw [xhypot_eq, Real.sq_sqrt (by positivity)]
  generalize xhypot (reals tiny ε) f h = d at hsq ⊢
  split_ifs with hd
  · refine ⟨by field_simp, by field_simp, ?_⟩
    field_simp
    exact hsq.symm
  · have hd : d = 0 := not_not.mp hd
    have hf : f = 0 := by nlinarith [sq_nonneg f, sq_nonneg h]
    have hh : h = 0 := by nlinarith [sq_nonneg f, sq_nonneg h]
    exact ⟨by rw [hd, hf, zero_mul], by rw [hd, hh, zero_mul], hcs⟩

theorem chaseRound_eq (tiny ε : ℝ) (w : Chase ℝ) (j : ℕ) (h : w.s * w.x.E (j + 1) ≠ 0) :
    ∃ z d c₁ s₁ c₂ s₂, (c₁ * z = w.f ∧ s₁ * z = w.s * w.x.E (j + 1) ∧ c₁ ^ 2 + s₁ ^ 2 = 1) ∧
      (d * c₂ = w.a * c₁ + w.x.E (j + 1) * w.c * s₁ ∧ d * s₂ = w.x.S (j + 1) * s₁ ∧
        c₂ ^ 2 + s₂ ^ 2 = 1) ∧
      chaseRound (reals tiny ε) N w j =
        { x :=
            { U := givensApplyU N j (j + 1) c₂ s₂ w.x.U
              S := update w.x.S j d
              E := update w.x.E j z
              V := givensApplyV N j (j + 1) c₁ s₁ w.x.V }
          f := c₂ * (w.x.E (j + 1) * w.c * c₁ - w.a * s₁) + s₂ * (w.x.S (j + 1) * c₁)
          a := c₂ * (w.x.S (j + 1) * c₁) - s₂ * (w.x.E (j + 1) * w.c * c₁ - w.a * s₁)
          c := c₂
          s := s₂ } := by
  obtain ⟨-, hc₁, hs₁, hcs₁⟩ := givens_spec tiny ε (.inr h)
  obtain ⟨c₂, s₂, hc, hs, hc₂, hs₂, hcs₂⟩ := arbitrary_spec tiny ε
    (w.a * (givens (reals tiny ε) w.f (w.s * w.x.E (j + 1))).2.1 +
      w.x.E (j + 1) * w.c * (givens (reals tiny ε) w.f (w.s * w.x.E (j + 1))).2.2)
    (w.x.S (j + 1) * (givens (reals tiny ε) w.f (w.s * w.x.E (j + 1))).2.2) hcs₁
  refine ⟨_, _, _, _, c₂, s₂, ⟨hc₁, hs₁, hcs₁⟩, ⟨hc₂, hs₂, hcs₂⟩, ?_⟩
  rw [hc, hs]
  rfl

/-- **One round.** -/
theorem Chasing.round (h : Chasing N l k j x w) (hl : l ≤ j) (hj : j < k) (hk : k < N)
    (hE : x.E (j + 1) ≠ 0) (hS : j + 1 < k → x.S (j + 1) ≠ 0) :
    Chasing N l k (j + 1) x (chaseRound (reals tiny ε) N w j) := by
  have hEj := h.otherE _ (.inr (Nat.lt_succ_self j))
  have hSj := h.otherS _ (.inr (Nat.lt_succ_self j))
  have hne := (Nat.succ_ne_self j).symm
  have hside : w.s * w.x.E (j + 1) ≠ 0 := mul_ne_zero (h.sine hj) (hEj ▸ hE)
  obtain ⟨z, d, c₁, s₁, c₂, s₂, ⟨hc₁, hs₁, hcs₁⟩, ⟨hc₂, hs₂, hcs₂⟩, hround⟩ :=
    chaseRound_eq tiny ε w j hside
  rw [hround]
  constructor
  case orthogonal =>
    exact ⟨frame_givensApplyU h.orthogonal.u (by omega) (by omega) hne hcs₂,
      frame_givensApplyV h.orthogonal.v (by omega) (by omega) hne hcs₁⟩
  case otherS => exact fun q hq => (update_of_ne (by omega) ..).trans (h.otherS q (by omega))
  case otherE => exact fun q hq => (update_of_ne (by omega) ..).trans (h.otherE q (by omega))
  case sine =>
    intro hjk hzero
    have hs₁ne : s₁ ≠ 0 := fun h₀ => hside (by rw [← hs₁, h₀, zero_mul])
    refine mul_ne_zero (hSj ▸ hS hjk) hs₁ne ?_
    rw [← hs₂, show s₂ = 0 from hzero, mul_zero]
  case sum =>
    intro r hr y hy
    rw [← h.sum r hr y hy, ← sum_bulge_round hl (by omega) hc₁ hs₁ hcs₁ hc₂ hs₂ hcs₂,
      ← givensApplyU_apply hne c₂ s₂ w.x.U hr, ← givensApplyV_apply hne c₁ s₁ w.x.V hy]

variable (tiny ε) in
theorem chasing_rounds (hx : Orthogonal N x) (hl : x.E l = 0) (hk : k < N)
    (hE : ∀ q, l < q → q ≤ k → x.E q ≠ 0) (hS : ∀ q, l ≤ q → q < k → x.S q ≠ 0) (f : ℝ) (m : ℕ)
    (hm : l + m ≤ k) : Chasing N l k (l + m) x
      ((List.range' l m).foldl (chaseRound (reals tiny ε) N) ⟨x, f, x.S l, 1, 1⟩) := by
  induction m with
  | zero => exact chasing_start hx hl f
  | succ m ih =>
    rw [List.range'_1_concat, List.foldl_append]
    exact (ih (by omega)).round (by omega) (by omega) hk (hE _ (by omega) (by omega))
      fun h => hS _ (by omega) h

end Rounds

/-! ## The transformation -/

variable (tiny ε) in
/-- **The QR transformation** of a block without zeros, with any shift: U and V' stay
orthogonal, and the product stays if the block is split off on both sides. -/
theorem qrSweep_spec {l k : ℕ} {x : Svd ℝ} (hx : Orthogonal N x) (hE₀ : x.E 0 = 0)
    (hl : x.E l = 0) (hlk : l < k) (hk : k < N) (hE : ∀ q, l < q → q ≤ k → x.E q ≠ 0)
    (hS : ∀ q, l ≤ q → q < k → x.S q ≠ 0) (f : ℝ) :
    Orthogonal N (qrSweep (reals tiny ε) N l k f x) ∧
      (qrSweep (reals tiny ε) N l k f x).E 0 = 0 ∧
      (∀ q, k < q → (qrSweep (reals tiny ε) N l k f x).E q = x.E q) ∧
      ((k + 1 < N → x.E (k + 1) = 0) →
        (qrSweep (reals tiny ε) N l k f x).product N = x.product N) := by
  have hdone := chasing_rounds tiny ε hx hl hk hE hS f (k - l) (by omega)
  rw [Nat.add_sub_cancel' hlk.le] at hdone
  rw [qrSweep]
  generalize (List.range' l (k - l)).foldl (chaseRound (reals tiny ε) N) ⟨x, f, x.S l, 1, 1⟩ = w
    at hdone
  have hzero : update (update w.x.E l 0) k w.f 0 = 0 := by
    rw [update_of_ne (by omega), update_apply]
    split_ifs with h₀
    · rfl
    · exact (hdone.otherE 0 (.inl (by omega))).trans hE₀
  refine ⟨⟨hdone.orthogonal.u, hdone.orthogonal.v⟩, hzero, fun q hq => ?_, fun hlast => ?_⟩
  · dsimp only
    rw [update_of_ne (by omega), update_of_ne (by omega)]
    exact hdone.otherE q (.inr hq)
  · ext r y
    rw [product_apply hzero, product_apply hE₀, ← hdone.sum r r.isLt y y.isLt]
    refine Finset.sum_congr rfl fun q hq => congrArg (· * _) ?_
    have hq := Finset.mem_range.mp hq
    rw [column]
    dsimp only
    rcases eq_or_ne q k with rfl | h₁
    · rw [bulge_self, preceding, if_neg (by omega), update_self, update_self]
    rw [update_of_ne h₁, update_of_ne h₁]
    rcases eq_or_ne q (k + 1) with rfl | h₂
    · have hbehind := (hdone.otherE _ (.inr (Nat.lt_succ_self k))).trans (hlast hq)
      rw [bulge_next, update_of_ne (by omega), hbehind, mul_zero, mul_zero]
    · rw [bulge_of_ne h₁ h₂, update_apply]

end Qucs.Linear.Svd
