/-
# What the reflections leave in the matrix

Over the reals, with an exact square root. After the columns before `c` are
done (`Reduced`):

* `cMap` is a permutation, and the vectors stored so far are reflections;
* these reflections, applied to the columns of the original matrix in the order
  of `cMap`, give the matrix, where zeros stand for the stored vectors.

So the diagonal of R is made of distances: entry `k` is how far its column is
from the span of those before it (`Reduced.diag_eq`).
-/
import Qucs.Lib.Fold
import Qucs.Lib.Mirrors
import Qucs.Linear.Qr

namespace Qucs.Linear

open Lib.InPlace Lib.Mirrors Function Finset Real Equiv
open Prod (mk)
open Finset (range Ico)

/-- Real numbers, with the two constants. -/
noncomputable def reals (tiny epsilon : ℝ) : Precision ℝ := ⟨Real.sqrt, tiny, epsilon⟩

variable {tiny ε : ℝ} {N : ℕ}

/-! ## Norms -/

/-- The scaled sum of squares. -/
structure Scaled (norm : ℝ × ℝ) (sum : ℝ) : Prop where
  scale : 0 ≤ norm.2
  eq : norm.2 ^ 2 * norm.1 = sum

theorem Scaled.update {norm : ℝ × ℝ} {sum : ℝ} (h : Scaled norm sum) (a : ℝ) :
    Scaled (euclidianUpdate norm a) (sum + a ^ 2) := by
  rw [euclidianUpdate]
  split_ifs with ha hscale
  · have hpos : 0 < |a| := abs_pos.mpr ha
    refine ⟨hpos.le, ?_⟩
    rw [← h.eq, ← sq_abs a]
    field_simp
    ring
  · have hpos : 0 < norm.2 := (abs_pos.mpr ha).trans_le (not_lt.mp hscale)
    refine ⟨h.scale, ?_⟩
    rw [← h.eq, ← sq_abs a]
    field_simp
  · rw [not_not.mp ha]
    exact ⟨h.scale, by rw [h.eq]; ring⟩

theorem euclidianC_eq (A : ℕ × ℕ → ℝ) (c r : ℕ) :
    euclidianC (reals tiny ε) N A c r = √(∑ i ∈ Ico r N, A (i, c) ^ 2) := by
  have hscaled := Lib.Fold.foldl_rule (l := List.range' r (N - r))
    (f := fun norm i => euclidianUpdate norm (A (i, c)))
    (P := fun done (norm : ℝ × ℝ) => Scaled norm (done.map fun i => A (i, c) ^ 2).sum)
    (b := (1, 0)) ⟨le_rfl, by simp⟩ fun done i rest _ h => by
      rw [List.map_append, List.sum_append]
      simpa using h.update (A (i, c))
  rw [sum_map_range', Ico_add_sub] at hscaled
  rw [← hscaled.eq, sqrt_mul (sq_nonneg _), sqrt_sq hscaled.scale]
  rfl

theorem xhypot_eq (a b : ℝ) : xhypot (reals tiny ε) a b = √(a ^ 2 + b ^ 2) := by
  have hscaled : ∀ c d, 0 < c → c * √(1 + d / c * (d / c)) = √(c ^ 2 + d ^ 2) := by
    intro c d hc
    nth_rewrite 1 [← sqrt_sq hc.le]
    rw [← sqrt_mul (sq_nonneg c)]
    congr 1
    field_simp
  rw [xhypot, ← sq_abs a, ← sq_abs b]
  split_ifs with hab hb
  · exact hscaled _ _ ((abs_nonneg b).trans_lt hab)
  · rw [hb] at hab ⊢
    rw [le_antisymm (not_lt.mp hab) (abs_nonneg a)]
    simp
  · rw [add_comm (|a| ^ 2)]
    exact hscaled _ _ ((abs_nonneg b).lt_of_ne (Ne.symm hb))

theorem sign_mul_abs (a : ℝ) : sign a * |a| = a := by
  rw [sign]
  split_ifs with ha
  · rw [abs_of_neg ha]
    ring
  · rw [abs_of_nonneg (not_lt.mp ha), one_mul]

theorem sign_mul_sign (a : ℝ) : sign a * sign a = 1 := by
  rw [sign]
  split_ifs <;> ring

/-! ## One reflection -/

section Reflection

variable {c : ℕ}

/-- The stored vector, with the one in front. -/
def house (N : ℕ) (A : ℕ × ℕ → ℝ) (c i : ℕ) : ℝ :=
  if i = c then 1 else if c < i ∧ i < N then A (i, c) else 0

theorem house_self (A : ℕ × ℕ → ℝ) (c : ℕ) : house N A c c = 1 := if_pos rfl

theorem house_of_gt {A : ℕ × ℕ → ℝ} {i : ℕ} (hc : c < i) (hi : i < N) :
    house N A c i = A (i, c) := by
  rw [house, if_neg hc.ne', if_pos ⟨hc, hi⟩]

theorem house_of_lt {A : ℕ × ℕ → ℝ} {i : ℕ} (hi : i < c) : house N A c i = 0 := by
  rw [house, if_neg hi.ne, if_neg (by omega)]

theorem house_congr {A A' : ℕ × ℕ → ℝ} (h : ∀ i, c < i → A' (i, c) = A (i, c)) :
    house N A' c = house N A c := by
  funext i
  rw [house, house]
  split_ifs with _ hi
  · rfl
  · exact h i hi.1
  · rfl

theorem dot_house (A : ℕ × ℕ → ℝ) (hc : c < N) (x : ℕ → ℝ) :
    dot N (house N A c) x = x c + ∑ i ∈ Ico (c + 1) N, A (i, c) * x i := by
  have hsum := Lib.Triangular.sum_upper (u := fun _ => house N A c)
    (fun j hj => house_of_lt hj) hc x
  rw [dot, hsum, house_self, one_mul]
  congr 1
  refine sum_congr rfl fun i hi => ?_
  rw [house_of_gt (mem_Ico.mp hi).1 (mem_Ico.mp hi).2]

/-- The loops of a reflection, over the cells `pos`. -/
theorem sweep_house {κ : Type*} [DecidableEq κ] (pos : ℕ → κ)
    (hpos : ∀ i j, pos i = pos j → i = j) (A : ℕ × ℕ → ℝ) (x : κ → ℝ) (t : ℝ)
    (w : ℕ → (κ → ℝ) → ℝ) (hw : ∀ k z, (∀ q, (∀ j, pos j ≠ q) → z q = x q) → w k z = A (k, c))
    (hc : c < N) (f : ℝ) (hf : f = dot N (house N A c) (x ∘ pos) * t) :
    let y := sweep (List.range' (c + 1) (N - (c + 1))) pos (fun k x => x (pos k) - f * w k x)
      (update x (pos c) (x (pos c) - f))
    (∀ k, y (pos k) = mirror N (house N A c) t (x ∘ pos) k) ∧
      ∀ q, (∀ k, pos k ≠ q) → y q = x q := by
  obtain ⟨y, hy, hself, hlater, hother⟩ := sweep_sub pos hpos x f w
    (fun k z hz => (hw k z hz).trans (hw k x fun _ _ => rfl).symm) hc
  rw [← hy]
  refine ⟨fun k => ?_, fun q hq => hother q fun k _ _ => hq k⟩
  rw [mirror_apply, mul_comm t, ← hf, comp_apply]
  rcases Nat.lt_trichotomy k c with hk | rfl | hk
  · rw [house_of_lt hk, mul_zero, sub_zero]
    exact hother _ fun j hj _ heq => by have := hpos j k heq; omega
  · rw [hself, house_self, mul_one]
  · rcases Nat.lt_or_ge k N with hkN | hkN
    · rw [hlater k hk hkN, house_of_gt hk hkN, hw k x fun _ _ => rfl]
    · rw [house, if_neg hk.ne', if_neg (by omega), mul_zero, sub_zero]
      exact hother _ fun j _ hj heq => by have := hpos j k heq; omega

section

variable (A : ℕ × ℕ → ℝ) (hc : c < N) (t : ℝ)
include A hc t

theorem reflect_eq (B : ℕ → ℝ) : reflect N A c t B = mirror N (house N A c) t B := by
  have hdot : (List.range' (c + 1) (N - (c + 1))).foldl (fun f r => f + A (r, c) * B r) (B c) =
      dot N (house N A c) B := by
    rw [foldl_add_range', Ico_add_sub, dot_house A hc]
  funext k
  exact (sweep_house id (fun _ _ h => h) A B t (fun k _ => A (k, c)) (fun _ _ _ => rfl) hc
    _ (congrArg (· * t) hdot)).1 k

theorem applyToColumn_eq {r : ℕ} (hr : r ≠ c) :
    (∀ k, applyToColumn N c t A r (k, r) = mirror N (house N A c) t (fun k => A (k, r)) k) ∧
      ∀ k j, j ≠ r → applyToColumn N c t A r (k, j) = A (k, j) := by
  have hdot : (List.range' (c + 1) (N - (c + 1))).foldl (fun f k => f + A (k, c) * A (k, r))
      (A (c, r)) = dot N (house N A c) fun k => A (k, r) := by
    rw [foldl_add_range', Ico_add_sub, dot_house A hc]
  obtain ⟨hcol, hother⟩ := sweep_house (fun k => (k, r)) (fun _ _ h => (mk.inj h).1)
    A A t (fun k A => A (k, c))
    (fun k z hz => hz (k, c) fun j heq => hr (mk.inj heq).2) hc _ (congrArg (· * t) hdot)
  exact ⟨hcol, fun k j hj => hother (k, j) fun i heq => hj (mk.inj heq).2.symm⟩

theorem householderApplyLeft_eq :
    (∀ j, c < j → j < N → ∀ k, householderApplyLeft N A c t (k, j) =
      mirror N (house N A c) t (fun k => A (k, j)) k) ∧
      ∀ k j, j ≤ c → householderApplyLeft N A c t (k, j) = A (k, j) := by
  have hmem : ∀ r, r ∈ List.range' (c + 1) (N - (c + 1)) ↔ c < r ∧ r < N := by
    intro r
    rw [List.mem_range'_1]
    omega
  have hdone := Lib.Fold.foldl_rule (l := List.range' (c + 1) (N - (c + 1)))
    (f := applyToColumn N c t)
    (P := fun done (A' : ℕ × ℕ → ℝ) =>
      (∀ j ∈ done, ∀ k, A' (k, j) = mirror N (house N A c) t (fun k => A (k, j)) k) ∧
        ∀ j ∉ done, ∀ k, A' (k, j) = A (k, j))
    ⟨fun j hj => absurd hj List.not_mem_nil, fun _ _ _ => rfl⟩
    fun done r rest hlist ⟨hin, hout⟩ => by
      have hnodup : (done ++ r :: rest).Nodup := hlist ▸ List.nodup_range' ..
      have hr : r ∉ done := fun h => List.disjoint_of_nodup_append hnodup h List.mem_cons_self
      have hcr : c < r := ((hmem r).mp (hlist ▸ by simp)).1
      have hcd : c ∉ done := fun h =>
        lt_irrefl c ((hmem c).mp (hlist ▸ List.mem_append_left _ h)).1
      obtain ⟨hcol, hother⟩ := applyToColumn_eq (done.foldl (applyToColumn N c t) A) hc t hcr.ne'
      refine ⟨fun j hj k => ?_, fun j hj k => ?_⟩
      · rcases List.mem_append.mp hj with hj | hj
        · rw [hother k j fun h => hr (h ▸ hj)]
          exact hin j hj k
        · obtain rfl := List.mem_singleton.mp hj
          rw [hcol, house_congr fun i _ => hout c hcd i]
          simp only [hout j hr]
      · rw [List.mem_append, List.mem_singleton, not_or] at hj
        rw [hother k j hj.2]
        exact hout j hj.1 k
  refine ⟨fun j hcj hj => hdone.1 j ((hmem j).mpr ⟨hcj, hj⟩), fun k j hj => hdone.2 j ?_ k⟩
  exact fun h => (not_lt.mpr hj) ((hmem j).mp h).1

end

/-- A column is eliminated: the matrix before and after, and the factor. -/
structure Reflected (N : ℕ) (A : ℕ × ℕ → ℝ) (c : ℕ) (A' : ℕ × ℕ → ℝ) (t : ℝ) : Prop where
  isMirror : IsMirror N (house N A' c) t
  left : ∀ k j, j < c → A' (k, j) = A (k, j)
  column : ∀ k < N, mirror N (house N A' c) t (fun k => A (k, c)) k = if c < k then 0 else A' (k, c)
  right : ∀ j, c < j → j < N → ∀ k, A' (k, j) = mirror N (house N A' c) t (fun k => A (k, j)) k

/-- The vector with the entries `A (i, c) / (a + g)` eliminates its column, if
`g` has the sign of `a` and the length of the column. -/
theorem house_eliminates {A A' : ℕ × ℕ → ℝ} {a g S : ℝ} (hc : c < N) (ha : A (c, c) = a)
    (hS : ∑ i ∈ Ico (c + 1) N, A (i, c) ^ 2 = S) (hSpos : 0 < S) (hg : g ^ 2 = a ^ 2 + S)
    (hag : 0 ≤ a * g) (hcell : ∀ i, c < i → i < N → A' (i, c) = A (i, c) / (a + g))
    (hdiag : A' (c, c) = -g) (habove : ∀ k < c, A' (k, c) = A (k, c)) :
    IsMirror N (house N A' c) ((a + g) / g) ∧
      ∀ k < N, mirror N (house N A' c) ((a + g) / g) (fun k => A (k, c)) k =
        if c < k then 0 else A' (k, c) := by
  have hgpos : 0 < g ^ 2 := by
    rw [hg]
    positivity
  have hg0 : g ≠ 0 := (pow_ne_zero_iff two_ne_zero).mp hgpos.ne'
  have hb0 : a + g ≠ 0 := by
    refine (pow_ne_zero_iff two_ne_zero).mp (ne_of_gt ?_)
    nlinarith [sq_nonneg a]
  have hcol : dot N (house N A' c) (fun k => A (k, c)) = g := by
    have hsum : ∑ i ∈ Ico (c + 1) N, A' (i, c) * A (i, c) = S / (a + g) := by
      rw [← hS, sum_div]
      refine sum_congr rfl fun i hi => ?_
      rw [hcell i (mem_Ico.mp hi).1 (mem_Ico.mp hi).2]
      ring
    rw [dot_house _ hc, hsum, ha]
    field_simp
    linear_combination -hg
  have hself : dot N (house N A' c) (house N A' c) = 1 + S / (a + g) ^ 2 := by
    rw [dot_house _ hc, house_self, ← hS, sum_div]
    congr 1
    refine sum_congr rfl fun i hi => ?_
    obtain ⟨hci, hi⟩ := mem_Ico.mp hi
    rw [house_of_gt hci hi, hcell i hci hi, div_mul_div_comm, ← sq, ← sq]
  refine ⟨.inr ?_, fun k hk => ?_⟩
  · rw [hself]
    field_simp
    linear_combination -hg
  · rw [mirror_apply, hcol]
    rcases Nat.lt_trichotomy k c with hkc | rfl | hkc
    · rw [house_of_lt hkc, if_neg (by omega), habove k hkc]
      ring
    · rw [house_self, if_neg (lt_irrefl k), hdiag, ha]
      field_simp
      ring
    · rw [house_of_gt hkc hk, if_pos hkc, hcell k hkc hk]
      field_simp
      ring

/-- The vector that is created eliminates its column. -/
theorem householderCreateLeft_spec (A : ℕ × ℕ → ℝ) (hc : c < N) {created : (ℕ × ℕ → ℝ) × ℝ}
    (hcreated : created = householderCreateLeft (reals tiny ε) N A c) :
    IsMirror N (house N created.1 c) created.2 ∧
      (∀ k j, j ≠ c → created.1 (k, j) = A (k, j)) ∧
      ∀ k < N, mirror N (house N created.1 c) created.2 (fun k => A (k, c)) k =
        if c < k then 0 else created.1 (k, c) := by
  rw [householderCreateLeft, euclidianC_eq] at hcreated
  generalize hS : ∑ i ∈ Ico (c + 1) N, A (i, c) ^ 2 = S at hcreated
  have hSnonneg : 0 ≤ S := hS ▸ sum_nonneg fun i _ => sq_nonneg _
  split_ifs at hcreated with hs
  case pos =>
    have hzero :=
      (sum_eq_zero_iff_of_nonneg fun i _ => sq_nonneg _).mp
        (hS.trans ((sqrt_eq_zero hSnonneg).mp hs))
    subst hcreated
    refine ⟨.inl rfl, fun _ _ _ => rfl, fun k hk => ?_⟩
    rw [mirror_zero, LinearMap.id_apply]
    split
    case isTrue hck => exact (pow_eq_zero_iff two_ne_zero).mp (hzero k (mem_Ico.mpr ⟨hck, hk⟩))
    case isFalse => rfl
  case neg =>
    have hSpos : 0 < S := hSnonneg.lt_of_ne fun h => hs (by rw [← h, sqrt_zero])
    dsimp only at hcreated
    rw [xhypot_eq, sq_sqrt hSnonneg] at hcreated
    generalize ha : A (c, c) = a at hcreated
    generalize hg : sign a * √(a ^ 2 + S) = g at hcreated
    have hgg : g ^ 2 = a ^ 2 + S := by
      rw [← hg, mul_pow, sq_sqrt (by positivity), sq (sign a), sign_mul_sign, one_mul]
    have hag : 0 ≤ a * g := by
      have : a * g = |a| * √(a ^ 2 + S) := by
        linear_combination -(a * hg) - √(a ^ 2 + S) * sign a * sign_mul_abs a +
          |a| * √(a ^ 2 + S) * sign_mul_sign a
      rw [this]
      positivity
    subst hcreated
    have hcell : ∀ i, c < i → i < N → update (sweep (List.range' (c + 1) (N - (c + 1)))
        (fun r => (r, c)) (fun r A => A (r, c) / (a + g)) A) (c, c) (-g) (i, c) =
          A (i, c) / (a + g) := by
      intro i hci hi
      obtain ⟨z, hz, -, hother⟩ := sweep_range' (fun r => (r, c)) (fun r A => A (r, c) / (a + g)) A
        (fun _ _ _ _ h => (mk.inj h).1) (n := N - (c + 1)) (by omega : c + 1 ≤ i) (by omega)
      rw [update_of_ne fun h => hci.ne' (mk.inj h).1, hz, hother]
      exact fun j _ hj h => hj.ne (mk.inj h).1
    have hkeep : ∀ k j, (j ≠ c ∨ k < c) → update (sweep (List.range' (c + 1) (N - (c + 1)))
        (fun r => (r, c)) (fun r A => A (r, c) / (a + g)) A) (c, c) (-g) (k, j) = A (k, j) := by
      intro k j h
      rw [update_of_ne, sweep_of_ne]
      · intro r hr heq
        have := (List.mem_range'_1.mp hr).1
        obtain ⟨rfl, rfl⟩ := mk.inj heq
        omega
      · intro heq
        obtain ⟨rfl, rfl⟩ := mk.inj heq
        omega
    obtain ⟨hmirror, hcol⟩ := house_eliminates hc ha hS hSpos hgg hag hcell
      (update_self ..) fun k hk => hkeep k c (.inr hk)
    exact ⟨hmirror, fun k j hj => hkeep k j (.inl hj), hcol⟩

variable (tiny ε) in
theorem householderLeft_reflected (A : ℕ × ℕ → ℝ) (hc : c < N) :
    Reflected N A c (householderLeft (reals tiny ε) N A c).1
      (householderLeft (reals tiny ε) N A c).2 := by
  obtain ⟨hmirror, hother,
    hcol⟩ := householderCreateLeft_spec A hc (rfl : _ = householderCreateLeft (reals tiny ε) N A c)
  rw [householderLeft]
  generalize householderCreateLeft (reals tiny ε) N A c = created at *
  obtain ⟨A', t⟩ := created
  dsimp only at *
  obtain ⟨A'', hA'', hright, hleft⟩ : ∃ A'', (if t ≠ 0 then householderApplyLeft N A' c t else A') =
      A'' ∧ (∀ j, c < j → j < N → ∀ k, A'' (k, j) =
        mirror N (house N A' c) t (fun k => A' (k, j)) k) ∧
      ∀ k j, j ≤ c → A'' (k, j) = A' (k, j) := by
    refine ⟨_, rfl, ?_⟩
    split
    case isTrue => exact householderApplyLeft_eq A' hc t
    case isFalse ht =>
      rw [not_not.mp ht, mirror_zero]
      exact ⟨fun _ _ _ _ => rfl, fun _ _ _ => rfl⟩
  rw [hA'']
  have hhouse : house N A'' c = house N A' c := house_congr fun i _ => hleft i c le_rfl
  constructor
  case isMirror => rwa [hhouse]
  case left => exact fun k j hj => (hleft k j hj.le).trans (hother k j hj.ne)
  case column =>
    intro k hk
    rw [hhouse, hcol k hk, hleft k c le_rfl]
  case right =>
    intro j hcj hj k
    rw [hhouse, hright j hcj hj k]
    simp only [hother _ j hcj.ne']

end Reflection

/-! ## Pivots -/

section Pivot

variable {c : ℕ}

theorem largestNorm_range (nPvt : ℕ → ℝ) (hc : c < N) :
    c ≤ (largestNorm N nPvt c).1 ∧ (largestNorm N nPvt c).1 < N := by
  refine Lib.Fold.foldl_rule (b := (c, nPvt c))
    (P := fun _ (best : ℕ × ℝ) => c ≤ best.1 ∧ best.1 < N) ⟨le_rfl, hc⟩
    fun done r rest hlist h => ?_
  have hr : r ∈ List.range' (c + 1) (N - (c + 1)) := hlist ▸ by simp
  rw [List.mem_range'_1] at hr
  split_ifs
  · exact ⟨by omega, by omega⟩
  · exact h

end Pivot

/-! ## All columns -/

section Reduced

variable {A₀ : ℕ × ℕ → ℝ} {c : ℕ} {s : Qr ℝ}

/-- The columns before `c` are reduced. -/
structure Reduced (N : ℕ) (A₀ : ℕ × ℕ → ℝ) (c : ℕ) (s : Qr ℝ) : Prop where
  perm : Set.BijOn s.cMap (Set.Iio N) (Set.Iio N)
  isMirror : ∀ k < c, IsMirror N (house N s.A k) (s.T k)
  image : ∀ j < N, ∀ k < N, mirrors N (house N s.A) s.T c (fun i => A₀ (i, s.cMap j)) k =
    if j < c ∧ j < k then 0 else s.A (k, j)

theorem columnNorms_reduced (A : ℕ × ℕ → ℝ) : Reduced N A 0 (columnNorms (reals tiny ε) N A) := by
  constructor
  case perm => exact Set.bijOn_id _
  case isMirror => exact fun k hk => absurd hk (Nat.not_lt_zero k)
  case image => exact fun j _ k _ => (if_neg fun h => Nat.not_lt_zero j h.1).symm

theorem Reduced.exchange (h : Reduced N A₀ c s) (hc : c < N) {p : ℕ} (hcp : c ≤ p) (hp : p < N) :
    Reduced N A₀ c (swapCols p c s) := by
  have hlt : ∀ k < c, swap p c k = k := fun k hk =>
    swap_apply_of_ne_of_ne (by omega) (by omega)
  have hge : ∀ j, c ≤ j → j < N → c ≤ swap p c j ∧ swap p c j < N := by
    intro j hcj hj
    rw [swap_apply_def]
    split_ifs <;> omega
  have hN : ∀ j < N, swap p c j < N := by
    intro j hj
    rcases Nat.lt_or_ge j c with hjc | hjc
    · rwa [hlt j hjc]
    · exact (hge j hjc hj).2
  have hhouse : ∀ k < c, house N (swapCols p c s).A k = house N s.A k := by
    intro k hk
    refine house_congr fun i _ => ?_
    show s.A (i, swap p c k) = s.A (i, k)
    rw [hlt k hk]
  constructor
  case perm =>
    refine h.perm.comp ⟨fun j hj => hN j hj, (Equiv.injective _).injOn, fun j hj => ?_⟩
    exact ⟨swap p c j, hN j hj, swap_apply_self ..⟩
  case isMirror =>
    intro k hk
    rw [hhouse k hk]
    exact h.isMirror k hk
  case image =>
    intro j hj k hk
    rw [mirrors_congr hhouse fun _ _ => rfl]
    refine (h.image _ (hN j hj) k hk).trans ?_
    rcases Nat.lt_or_ge j c with hjc | hjc
    · show (if _ then 0 else _) = if _ then 0 else s.A (k, swap p c j)
      rw [hlt j hjc]
    · rw [if_neg (by have := hge j hjc hj; omega), if_neg (by omega)]
      rfl

theorem householderColumn_eq {prec : Precision ℝ} {p : ℕ} (hp : p = (largestNorm N s.nPvt c).1) :
    householderColumn prec N s c =
      { A := (householderLeft prec N (swapCols p c s).A c).1
        T := Function.update s.T c (householderLeft prec N (swapCols p c s).A c).2
        cMap := s.cMap ∘ Equiv.swap p c
        nPvt := sweep (List.range' (c + 1) (N - (c + 1))) id
          (fun r nPvt => remainingNorm prec N (householderLeft prec N (swapCols p c s).A c).1 c r
            (nPvt r)) (swapCols p c s).nPvt } := by
  rw [householderColumn, ← hp]
  have hswap : (if p ≠ c then swapCols p c s else s) = swapCols p c s := by
    split
    case isTrue => rfl
    case isFalse heq =>
      rw [not_not.mp heq]
      simp [swapCols]
  simp only [hswap]
  rfl

/-- **One column more.** -/
theorem Reduced.column (h : Reduced N A₀ c s) (hc : c < N) :
    Reduced N A₀ (c + 1) (householderColumn (reals tiny ε) N s c) := by
  obtain ⟨hcp, hpN⟩ := largestNorm_range s.nPvt hc
  rw [householderColumn_eq rfl]
  have hswap := h.exchange hc hcp hpN
  have hT : s.T = (swapCols (largestNorm N s.nPvt c).1 c s).T := rfl
  have hcMap : s.cMap ∘ swap (largestNorm N s.nPvt c).1 c =
    (swapCols (largestNorm N s.nPvt c).1 c s).cMap := rfl
  rw [hT, hcMap]
  generalize swapCols (largestNorm N s.nPvt c).1 c s = s₁ at hswap ⊢
  clear h hT hcMap hcp hpN
  have hreflected := householderLeft_reflected tiny ε s₁.A hc
  generalize householderLeft (reals tiny ε) N s₁.A c = reflected at hreflected ⊢
  obtain ⟨A', t⟩ := reflected
  dsimp only at hreflected ⊢
  have hhouse : ∀ k < c, house N A' k = house N s₁.A k := fun k hk =>
    house_congr fun i _ => hreflected.left i k hk
  have hfactor : ∀ k < c, update s₁.T c t k = s₁.T k := fun k hk =>
    update_of_ne hk.ne _ _
  constructor
  case perm => exact hswap.perm
  case isMirror =>
    intro k hk
    dsimp only
    rcases Nat.lt_succ_iff_lt_or_eq.mp hk with hk | rfl
    · rw [hhouse k hk, hfactor k hk]
      exact hswap.isMirror k hk
    · rw [update_self]
      exact hreflected.isMirror
  case image =>
    intro j hj k hk
    dsimp only
    rw [mirrors_succ, update_self, mirrors_congr hhouse hfactor, mirror_congr (hswap.image j hj) hk]
    rcases Nat.lt_trichotomy j c with hjc | rfl | hjc
    · have hdot : dot N (house N A' c) (fun k => if j < c ∧ j < k then 0 else s₁.A (k, j)) = 0 := by
        refine sum_eq_zero fun i _ => ?_
        rcases Nat.lt_or_ge i c with hi | hi
        · rw [house_of_lt hi, zero_mul]
        · exact mul_eq_zero_of_right _ (if_pos ⟨hjc, hjc.trans_le hi⟩)
      rw [mirror_apply, hdot, mul_zero, zero_mul, sub_zero, hreflected.left k j hjc]
      simp only [hjc, hjc.trans c.lt_succ_self]
    · simp only [lt_irrefl, false_and, if_false]
      rw [hreflected.column k hk]
      simp
    · rw [if_neg (by omega), hreflected.right j hjc hj]
      simp only [not_lt.mpr hjc.le, false_and, if_false]

/-- The factorisation after `c` columns. -/
noncomputable def stage (prec : Precision ℝ) (N : ℕ) (A : ℕ × ℕ → ℝ) (c : ℕ) : Qr ℝ :=
  (List.range c).foldl (householderColumn prec N) (columnNorms prec N A)

theorem stage_succ (prec : Precision ℝ) (N : ℕ) (A : ℕ × ℕ → ℝ) (c : ℕ) :
    stage prec N A (c + 1) = householderColumn prec N (stage prec N A c) c := by
  rw [stage, List.range_succ, List.foldl_append]
  rfl

/-- **The whole factorisation**, column by column. -/
theorem stage_reduced (A : ℕ × ℕ → ℝ) (hc : c ≤ N) :
    Reduced N A c (stage (reals tiny ε) N A c) := by
  induction c with
  | zero => exact columnNorms_reduced A
  | succ c ih =>
    rw [stage_succ]
    exact (ih (by omega)).column hc

variable (tiny ε s) in
theorem householderColumn_left {k : ℕ} (hk : k < c) (hc : c < N) :
    (householderColumn (reals tiny ε) N s c).cMap k = s.cMap k ∧
      ∀ i, (householderColumn (reals tiny ε) N s c).A (i, k) = s.A (i, k) := by
  obtain ⟨hcp, -⟩ := largestNorm_range s.nPvt hc
  have hswap : swap (largestNorm N s.nPvt c).1 c k = k :=
    swap_apply_of_ne_of_ne (by omega) (by omega)
  rw [householderColumn_eq rfl]
  refine ⟨congrArg s.cMap hswap, fun i => ?_⟩
  refine ((householderLeft_reflected _ _ _ hc).left i k hk).trans ?_
  show s.A (i, swap _ c k) = s.A (i, k)
  rw [hswap]

theorem stage_left (A : ℕ × ℕ → ℝ) {k d : ℕ} (hk : k < c) (hcd : c ≤ d) (hd : d ≤ N) :
    (stage (reals tiny ε) N A d).cMap k = (stage (reals tiny ε) N A c).cMap k ∧
      ∀ i, (stage (reals tiny ε) N A d).A (i, k) = (stage (reals tiny ε) N A c).A (i, k) := by
  induction d, hcd using Nat.le_induction with
  | base => exact ⟨rfl, fun _ => rfl⟩
  | succ d hcd ih =>
    obtain ⟨hcMap, hcell⟩ := ih (by omega)
    obtain ⟨hcMap', hcell'⟩ := householderColumn_left tiny ε
      (stage (reals tiny ε) N A d) (by omega : k < d) hd
    rw [stage_succ]
    exact ⟨hcMap'.trans hcMap, fun i => (hcell' i).trans (hcell i)⟩

/-! ## Distances -/

/-- The columns of the original matrix in the given order. -/
def sorted (A₀ : ℕ × ℕ → ℝ) (order : ℕ → ℕ) (j i : ℕ) : ℝ := A₀ (i, order j)

/-- How far the column in place `j` is from the span of those in the places
before `k`. -/
noncomputable def gap (N : ℕ) (A₀ : ℕ × ℕ → ℝ) (order : ℕ → ℕ) (k j : ℕ) : ℝ :=
  Metric.infDist (vec N (sorted A₀ order j))
    (Submodule.span ℝ ((fun i => vec N (sorted A₀ order i)) '' Set.Iio k))

theorem gap_congr {order order' : ℕ → ℕ} {k j : ℕ} (hk : ∀ i < k, order i = order' i)
    (hj : order j = order' j) : gap N A₀ order k j = gap N A₀ order' k j := by
  have hsorted : ∀ i, order i = order' i → sorted A₀ order i = sorted A₀ order' i := by
    intro i hi
    funext r
    rw [sorted, hi, sorted]
  rw [gap, hsorted j hj, Set.image_congr fun i hi => by rw [hsorted i (hk i hi)], gap]

/-- The gap of a column, by the entries of its image. -/
theorem Reduced.gap_eq (h : Reduced N A₀ c s) {k j : ℕ} (hk : k ≤ c) (hkN : k ≤ N) (hj : j < N)
    (hdiag : ∀ i < k, s.A (i, i) ≠ 0) :
    gap N A₀ s.cMap k j = √(∑ i ∈ Ico k N, (if j < c ∧ j < i then 0 else s.A (i, j)) ^ 2) := by
  rw [gap, infDist_span (fun x => dot_mirrors h.isMirror x x) hkN]
  · congr 1
    refine sum_congr rfl fun i hi => ?_
    rw [← h.image j hj i (mem_Ico.mp hi).2]
    rfl
  · intro i hi r hir hr
    exact (h.image i (by omega) r hr).trans (if_pos (by omega))
  · intro i hi
    rw [show mirrors N (house N s.A) s.T c (sorted A₀ s.cMap i) i =
      _ from h.image i (by omega) i (by omega),
      if_neg (by omega)]
    exact hdiag i hi

/-- **The diagonal of R** is made of distances. -/
theorem Reduced.diag_eq (h : Reduced N A₀ c s) {k : ℕ} (hk : k < c) (hkN : k < N)
    (hdiag : ∀ i < k, s.A (i, i) ≠ 0) : gap N A₀ s.cMap k k = |s.A (k, k)| := by
  rw [h.gap_eq hk.le hkN.le hkN hdiag, sum_eq_sum_Ico_succ_bot hkN,
    if_neg (by omega), sum_eq_zero, add_zero, sqrt_sq_eq_abs]
  intro i hi
  rw [if_pos ⟨hk, (mem_Ico.mp hi).1⟩, sq, zero_mul]

end Reduced

end Qucs.Linear
