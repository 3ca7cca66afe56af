/-
# Turning two vectors of a frame

A family of `N` vectors with `N` entries is a function `w`, where `w r q` is the entry
`r` of the vector `q`. It is a `Frame` if the vectors are orthonormal. A rotation
replaces two of them by combinations (`turn`) and keeps the frame (`Frame.turn`).

The loop that does this in place, entry by entry, is `rotate`: each round reads two
cells and overwrites both.
-/
import Mathlib

namespace Lib.Rotations

open Finset
open Function (update update_of_ne update_self)

open Finset (range)

section Loop

variable {κ K : Type*} [DecidableEq κ] [Ring K]

/-- `y = x (first i); z = x (second i)` and the two combinations, in turn. -/
def rotate (first second : ℕ → κ) (c s : K) (N : ℕ) (x : κ → K) : κ → K :=
  (List.range N).foldl (fun x i =>
    let y := x (first i)
    let z := x (second i)
    update (update x (first i) (y * c + z * s)) (second i) (z * c - y * s)) x

variable {first second : ℕ → κ} {c s : K} {N : ℕ}

theorem rotate_succ (x : κ → K) : rotate first second c s (N + 1) x =
    update (update (rotate first second c s N x) (first N)
      (rotate first second c s N x (first N) * c + rotate first second c s N x (second N) * s))
      (second N)
      (rotate first second c s N x (second N) * c - rotate first second c s N x (first N) * s) := by
  rw [rotate, List.range_succ, List.foldl_append]
  rfl

variable (first second) in
theorem rotate_of_ne {q : κ} (x : κ → K) (h : ∀ i < N, first i ≠ q ∧ second i ≠ q) :
    rotate first second c s N x q = x q := by
  induction N with
  | zero => rfl
  | succ N ih =>
    rw [rotate_succ, update_of_ne (h N (by omega)).2.symm,
      update_of_ne (h N (by omega)).1.symm]
    exact ih fun i hi => h i (by omega)

variable (first second) in
/-- What the round of an entry leaves behind, if no cell belongs to two rounds. -/
theorem rotate_at (x : κ → K) (hfirst : ∀ i j, first i = first j → i = j)
    (hsecond : ∀ i j, second i = second j → i = j) (hne : ∀ i j, first i ≠ second j) {i : ℕ}
    (hi : i < N) :
    rotate first second c s N x (first i) = x (first i) * c + x (second i) * s ∧
      rotate first second c s N x (second i) = x (second i) * c - x (first i) * s := by
  induction N with
  | zero => exact absurd hi (Nat.not_lt_zero i)
  | succ N ih =>
    rw [rotate_succ]
    rcases Nat.lt_succ_iff_lt_or_eq.mp hi with hlt | rfl
    · rw [update_of_ne (hne i N),
        update_of_ne fun h => hlt.ne (hfirst i N h),
        update_of_ne fun h => hlt.ne (hsecond i N h),
        update_of_ne (hne N i).symm]
      exact ih hlt
    · have hkeep : rotate first second c s i x (first i) = x (first i) ∧
          rotate first second c s i x (second i) = x (second i) :=
        ⟨rotate_of_ne first second x fun j hj => ⟨fun h => hj.ne (hfirst j i h), (hne i j).symm⟩,
          rotate_of_ne first second x fun j hj => ⟨hne j i, fun h => hj.ne (hsecond j i h)⟩⟩
      rw [update_of_ne (hne i i), update_self, update_self, hkeep.1, hkeep.2]
      exact ⟨rfl, rfl⟩

end Loop

section Turn

variable {K : Type*} [CommRing K]

/-- The vectors `i` and `j` are turned; here one entry of all vectors. -/
def turn (i j : ℕ) (c s : K) (w : ℕ → K) (q : ℕ) : K :=
  if q = i then w i * c + w j * s else if q = j then w j * c - w i * s else w q

variable {i j q : ℕ} {c s : K} {w : ℕ → K}

theorem turn_left : turn i j c s w i = w i * c + w j * s := if_pos rfl

theorem turn_right (hij : i ≠ j) : turn i j c s w j = w j * c - w i * s := by
  rw [turn, if_neg hij.symm, if_pos rfl]

theorem turn_of_ne (hi : q ≠ i) (hj : q ≠ j) : turn i j c s w q = w q := by
  rw [turn, if_neg hi, if_neg hj]

theorem sum_two {N : ℕ} {F G : ℕ → K} (hi : i < N) (hj : j < N) (hij : i ≠ j)
    (h : F i + F j = G i + G j) (hother : ∀ q < N, q ≠ i → q ≠ j → F q = G q) :
    ∑ q ∈ range N, F q = ∑ q ∈ range N, G q := by
  have hpair : ∀ F : ℕ → K, ∑ q ∈ range N, F q =
      F i + F j + ∑ q ∈ ((range N).erase i).erase j, F q := by
    intro F
    have hi' := mem_range.mpr hi
    have hj' := mem_erase.mpr ⟨hij.symm, mem_range.mpr hj⟩
    rw [← add_sum_erase _ _ hi', ← add_sum_erase _ _ hj', add_assoc]
  rw [hpair F, hpair G, h]
  congr 1
  refine sum_congr rfl fun q hq => ?_
  rw [mem_erase, mem_erase, mem_range] at hq
  exact hother q hq.2.2 hq.2.1 hq.1

variable {N : ℕ} {w : ℕ → ℕ → K}

def Frame (N : ℕ) (w : ℕ → ℕ → K) : Prop :=
  ∀ p < N, ∀ q < N, ∑ r ∈ range N, w r p * w r q = if p = q then 1 else 0

theorem Frame.congr {w' : ℕ → ℕ → K} (h : Frame N w) (hw : ∀ r < N, w' r = w r) : Frame N w' := by
  intro p hp q hq
  rw [← h p hp q hq]
  refine sum_congr rfl fun r hr => ?_
  rw [hw r (mem_range.mp hr)]

theorem sum_combination (p p' q q' : ℕ) (a a' b b' : K) :
    ∑ r ∈ range N, (w r p * a + w r p' * a') * (w r q * b + w r q' * b') =
      (∑ r ∈ range N, w r p * w r q) * (a * b) + (∑ r ∈ range N, w r p * w r q') * (a * b') +
        (∑ r ∈ range N, w r p' * w r q) * (a' * b) +
          (∑ r ∈ range N, w r p' * w r q') * (a' * b') := by
  simp only [sum_mul, ← sum_add_distrib]
  refine sum_congr rfl fun r _ => ?_
  ring

/-- **A rotation keeps the frame.** -/
theorem Frame.turn (h : Frame N w) (hi : i < N) (hj : j < N) (hij : i ≠ j)
    (hcs : c ^ 2 + s ^ 2 = 1) : Frame N fun r => turn i j c s (w r) := by
  have hform : ∀ q < N, ∃ a b, ∃ p < N, p ≠ q ∧ (∀ r, Rotations.turn i j c s (w r) q =
      w r q * a + w r p * b) ∧ ((q = i ∧ p = j ∧ a = c ∧ b = s) ∨ (q = j ∧ p = i ∧ a = c ∧ b = -s) ∨
        (q ≠ i ∧ q ≠ j ∧ a = 1 ∧ b = 0)) := by
    intro q hq
    by_cases hqi : q = i
    · subst hqi
      exact ⟨c, s, j, hj, hij.symm, fun r => turn_left, .inl ⟨rfl, rfl, rfl, rfl⟩⟩
    · by_cases hqj : q = j
      · subst hqj
        refine ⟨c, -s, i, hi, hij, fun r => ?_, .inr (.inl ⟨rfl, rfl, rfl, rfl⟩)⟩
        rw [turn_right hij]
        ring
      · refine ⟨1, 0, i, hi, Ne.symm hqi, fun r => ?_, .inr (.inr ⟨hqi, hqj, rfl, rfl⟩)⟩
        rw [turn_of_ne hqi hqj]
        ring
  intro q hq q' hq'
  obtain ⟨a, b, p, hp, hpq, hw, hcase⟩ := hform q hq
  obtain ⟨a', b', p', hp', hpq', hw', hcase'⟩ := hform q' hq'
  simp only [hw, hw']
  rw [sum_combination, h q hq q' hq', h q hq p' hp', h p hp q' hq', h p hp p' hp']
  rcases hcase with ⟨rfl, rfl, rfl, rfl⟩ | ⟨rfl, rfl, rfl, rfl⟩ | ⟨hqi, hqj, rfl, rfl⟩ <;>
    rcases hcase' with ⟨rfl, rfl, rfl, rfl⟩ | ⟨rfl, rfl, rfl, rfl⟩ | ⟨hqi', hqj', rfl, rfl⟩ <;>
    grind

theorem Frame.neg (h : Frame N w) (k : ℕ) : Frame N fun r q => if q = k then -w r q else w r q := by
  intro p hp q hq
  have hpq := h p hp q hq
  by_cases hpk : p = k <;> by_cases hqk : q = k <;> simp only [hpk, hqk, if_true, if_false] at hpq ⊢
  · simpa only [neg_mul_neg] using hpq
  · simp only [neg_mul, sum_neg_distrib, hpq, if_neg (Ne.symm hqk), neg_zero]
  · simp only [mul_neg, sum_neg_distrib, hpq, neg_zero]
  · exact hpq

/-- Two vectors of a frame do not cancel. -/
theorem Frame.eq_zero (h : Frame N w) (hi : i < N) (hj : j < N) (hij : i ≠ j) {a : K}
    (ha : ∀ r < N, a * (w r i + w r j) = 0) : a = 0 := by
  have hsum : ∑ r ∈ range N, a * (w r i + w r j) * w r i = a := by
    have hexpand : ∑ r ∈ range N, a * (w r i + w r j) * w r i =
        a * ((∑ r ∈ range N, w r i * w r i) + ∑ r ∈ range N, w r j * w r i) := by
      rw [← sum_add_distrib, mul_sum]
      refine sum_congr rfl fun r _ => ?_
      ring
    rw [hexpand, h i hi i hi, h j hj i hi, if_pos rfl, if_neg hij.symm, add_zero, mul_one]
  rw [← hsum]
  refine sum_eq_zero fun r hr => ?_
  rw [ha r (mem_range.mp hr), zero_mul]

end Turn

end Lib.Rotations
