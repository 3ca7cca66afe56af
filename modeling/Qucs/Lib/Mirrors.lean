/-
# Sequences of reflections

Vectors are functions of a number, looked at below `n`. A reflection takes a
multiple of a vector `u` away (`mirror`); with the right factor it keeps scalar
products and is its own inverse (`IsMirror`). A sequence of reflections keeps
scalar products too, and the same reflections in the opposite order undo it
(`dot_mirrors`, `mirrors_mirrorsBack`).

A linear map that keeps lengths and makes the first `c` of some vectors upper
triangular shows how far another vector is from their span: as far as the image
is long from entry `c` on (`infDist_span`).
-/
import Qucs.Lib.Numerals
import Qucs.Lib.Triangular

namespace Lib.Mirrors

open Finset Submodule

open Finset (range Ico)

section Field

variable {K : Type*} [Field K] (n : ℕ)

def dot (x y : ℕ → K) : K := ∑ k ∈ range n, x k * y k

/-- `x - t (u · x) u`. -/
def mirror (u : ℕ → K) (t : K) : (ℕ → K) →ₗ[K] (ℕ → K) where
  toFun x k := x k - t * dot n u x * u k
  map_add' x y := by
    funext k
    simp only [dot, Pi.add_apply, mul_add, Finset.sum_add_distrib]
    ring
  map_smul' a x := by
    funext k
    simp only [dot, Pi.smul_apply, smul_eq_mul, mul_left_comm _ a, ← Finset.mul_sum,
      RingHom.id_apply]
    ring

/-- No reflection, or one at the plane orthogonal to `u`. -/
def IsMirror (u : ℕ → K) (t : K) : Prop := t = 0 ∨ t * dot n u u = 2

variable {n} {u x y : ℕ → K} {t : K}

theorem mirror_apply (u : ℕ → K) (t : K) (x : ℕ → K) (k : ℕ) :
    mirror n u t x k = x k - t * dot n u x * u k := rfl

theorem mirror_zero (u : ℕ → K) : mirror n u 0 = LinearMap.id := by
  ext x k
  simp [mirror_apply]

theorem dot_congr {x' y' : ℕ → K} (hx : ∀ k < n, x' k = x k) (hy : ∀ k < n, y' k = y k) :
    dot n x' y' = dot n x y := by
  refine sum_congr rfl fun k hk => ?_
  rw [hx k (mem_range.mp hk), hy k (mem_range.mp hk)]

theorem mirror_congr {x' : ℕ → K} (hx : ∀ k < n, x' k = x k) {k : ℕ} (hk : k < n) :
    mirror n u t x' k = mirror n u t x k := by
  rw [mirror_apply, mirror_apply, hx k hk, dot_congr (fun _ _ => rfl) hx]

theorem dot_comm (x y : ℕ → K) : dot n x y = dot n y x := by simp only [dot, mul_comm]

theorem dot_sub_smul (a : K) (x y z : ℕ → K) :
    dot n x (fun k => y k - a * z k) = dot n x y - a * dot n x z := by
  simp only [dot, mul_sub, sum_sub_distrib, mul_sum, mul_left_comm a]

theorem IsMirror.mul_mul (h : IsMirror n u t) : t * t * dot n u u = 2 * t := by
  rcases h with rfl | h
  · ring
  · linear_combination t * h

theorem dot_mirror (h : IsMirror n u t) (x y : ℕ → K) :
    dot n (mirror n u t x) (mirror n u t y) = dot n x y := by
  have hright : ∀ z, dot n z (mirror n u t y) = dot n z y - t * dot n u y * dot n z u :=
    fun z => dot_sub_smul ..
  have hleft : ∀ z, dot n (mirror n u t x) z = dot n x z - t * dot n u x * dot n u z := by
    intro z
    rw [dot_comm, dot_comm x, dot_comm u z]
    exact dot_sub_smul ..
  rw [hright, hleft, hleft, dot_comm x u]
  linear_combination dot n u x * dot n u y * h.mul_mul

theorem mirror_mirror (h : IsMirror n u t) (x : ℕ → K) : mirror n u t (mirror n u t x) = x := by
  have hdot : dot n u (mirror n u t x) = dot n u x - t * dot n u x * dot n u u := dot_sub_smul ..
  funext k
  rw [mirror_apply, hdot, mirror_apply]
  linear_combination dot n u x * u k * h.mul_mul

/-! ## Sequences -/

variable (n) in
/-- The reflections `0`, …, `c - 1`, in this order. -/
def mirrors (u : ℕ → ℕ → K) (t : ℕ → K) : ℕ → (ℕ → K) →ₗ[K] (ℕ → K)
  | 0 => LinearMap.id
  | c + 1 => mirror n (u c) (t c) ∘ₗ mirrors u t c

variable (n) in
/-- The reflections `c - 1`, …, `0`, in this order. -/
def mirrorsBack (u : ℕ → ℕ → K) (t : ℕ → K) : ℕ → (ℕ → K) →ₗ[K] (ℕ → K)
  | 0 => LinearMap.id
  | c + 1 => mirrorsBack u t c ∘ₗ mirror n (u c) (t c)

variable {us : ℕ → ℕ → K} {ts : ℕ → K} {c : ℕ}

theorem mirrors_succ (x : ℕ → K) :
    mirrors n us ts (c + 1) x = mirror n (us c) (ts c) (mirrors n us ts c x) := rfl

theorem mirrors_congr {us' : ℕ → ℕ → K} {ts' : ℕ → K} (hu : ∀ k < c, us' k = us k)
    (ht : ∀ k < c, ts' k = ts k) : mirrors n us' ts' c = mirrors n us ts c := by
  induction c with
  | zero => rfl
  | succ c ih =>
    rw [mirrors, mirrors, hu c c.lt_succ_self, ht c c.lt_succ_self,
      ih (fun k hk => hu k (hk.trans c.lt_succ_self)) fun k hk => ht k (hk.trans c.lt_succ_self)]

theorem dot_mirrors (h : ∀ k < c, IsMirror n (us k) (ts k)) (x y : ℕ → K) :
    dot n (mirrors n us ts c x) (mirrors n us ts c y) = dot n x y := by
  induction c with
  | zero => rfl
  | succ c ih =>
    rw [mirrors_succ, mirrors_succ, dot_mirror (h c c.lt_succ_self)]
    exact ih fun k hk => h k (hk.trans c.lt_succ_self)

theorem mirrors_mirrorsBack (h : ∀ k < c, IsMirror n (us k) (ts k)) (x : ℕ → K) :
    mirrors n us ts c (mirrorsBack n us ts c x) = x := by
  induction c generalizing x with
  | zero => rfl
  | succ c ih =>
    show mirror n (us c) (ts c) (mirrors n us ts c (mirrorsBack n us ts c
      (mirror n (us c) (ts c) x))) = x
    rw [ih fun k hk => h k (hk.trans c.lt_succ_self), mirror_mirror (h c c.lt_succ_self)]

theorem foldl_mirror (x : ℕ → K) :
    (List.range c).foldl (fun x k => mirror n (us k) (ts k) x) x = mirrors n us ts c x := by
  induction c with
  | zero => rfl
  | succ c ih =>
    rw [List.range_succ, List.foldl_append, ih]
    rfl

theorem foldl_reverse_mirror (x : ℕ → K) :
    (List.range c).reverse.foldl (fun x k => mirror n (us k) (ts k) x) x =
      mirrorsBack n us ts c x := by
  induction c generalizing x with
  | zero => rfl
  | succ c ih =>
    rw [List.range_succ, List.reverse_append, List.reverse_singleton, List.singleton_append,
      List.foldl_cons, ih]
    rfl

end Field

/-! ## Distances -/

variable (n : ℕ)

/-- The first `n` entries as a vector of the euclidean space. -/
def vec (x : ℕ → ℝ) : EuclideanSpace ℝ (Fin n) := WithLp.toLp 2 fun i => x i

variable {n}

theorem dist_vec (x y : ℕ → ℝ) : dist (vec n x) (vec n y) = √(dot n (x - y) (x - y)) := by
  rw [EuclideanSpace.dist_eq, dot, sum_range]
  congr 1
  refine sum_congr rfl fun i _ => ?_
  rw [Real.dist_eq, sq_abs, sq]
  rfl

/-- A vector whose image vanishes below `c` is the end of its image. -/
theorem dot_self_of_tail {c : ℕ} (hc : c ≤ n) {x : ℕ → ℝ} (h : ∀ k < c, x k = 0) :
    dot n x x = ∑ k ∈ Ico c n, x k ^ 2 := by
  rw [dot, ← sum_range_add_sum_Ico _ hc, sum_eq_zero, zero_add]
  · exact sum_congr rfl fun k _ => (sq _).symm
  · intro k hk
    rw [h k (mem_range.mp hk), zero_mul]

theorem tail_le_dot_self {c : ℕ} (hc : c ≤ n) (x : ℕ → ℝ) : ∑ k ∈ Ico c n, x k ^ 2 ≤ dot n x x := by
  rw [dot, ← sum_range_add_sum_Ico _ hc]
  simp only [← sq]
  have hnonneg : 0 ≤ ∑ k ∈ range c, x k ^ 2 := sum_nonneg fun k _ => sq_nonneg _
  linarith

/-- **The distance from a span**, read off the image under a map that keeps
lengths. -/
theorem infDist_span {L : (ℕ → ℝ) →ₗ[ℝ] (ℕ → ℝ)} (hL : ∀ x, dot n (L x) (L x) = dot n x x)
    {x : ℕ → ℕ → ℝ} {c : ℕ} (hc : c ≤ n) (hzero : ∀ j < c, ∀ k, j < k → k < n → L (x j) k = 0)
    (hdiag : ∀ j < c, L (x j) j ≠ 0) (y : ℕ → ℝ) :
    Metric.infDist (vec n y) (Submodule.span ℝ ((fun j => vec n (x j)) '' Set.Iio c)) =
      √(∑ k ∈ Ico c n, L y k ^ 2) := by
  refine le_antisymm ?_ ?_
  · obtain ⟨w, hw⟩ := Triangular.exists_upper
      (u := fun k j => if j < k then 0 else L (x j) k) (fun k j hj => if_pos hj)
      (fun k hk => by simpa using hdiag k hk) (L y)
    have hmem : vec n (∑ j ∈ range c, w j • x j) ∈
        span ℝ ((fun j => vec n (x j)) '' Set.Iio c) := by
      have hsum : vec n (∑ j ∈ range c, w j • x j) = ∑ j ∈ range c, w j • vec n (x j) := by
        ext i
        simp [vec]
      rw [hsum]
      refine Submodule.sum_mem _ fun j hj => Submodule.smul_mem _ _ (Submodule.subset_span ?_)
      exact ⟨j, mem_range.mp hj, rfl⟩
    have himage : ∀ k < n, L (∑ j ∈ range c, w j • x j) k =
        ∑ j ∈ range c, (if j < k then 0 else L (x j) k) * w j := by
      intro k hk
      rw [map_sum, Finset.sum_apply]
      refine sum_congr rfl fun j hj => ?_
      rw [map_smul, Pi.smul_apply, smul_eq_mul, mul_comm]
      split
      case isTrue hjk => rw [hzero j (mem_range.mp hj) k hjk hk]
      case isFalse => rfl
    refine (Metric.infDist_le_dist_of_mem hmem).trans_eq ?_
    rw [dist_vec, ← hL, map_sub, dot_self_of_tail hc]
    · congr 1
      refine sum_congr rfl fun k hk => ?_
      obtain ⟨hck, hkn⟩ := mem_Ico.mp hk
      rw [Pi.sub_apply, himage k hkn, sum_eq_zero, sub_zero]
      intro j hj
      rw [if_pos ((mem_range.mp hj).trans_le hck), zero_mul]
    · intro k hk
      rw [Pi.sub_apply, himage k (by omega), hw k hk, sub_self]
  · refine (Metric.le_infDist ⟨0, zero_mem _⟩).mpr fun z hz => ?_
    obtain ⟨w, rfl, hw⟩ : ∃ w, vec n w = z ∧ ∀ k, c ≤ k → k < n → L w k = 0 := by
      induction hz using span_induction with
      | mem z hz =>
        obtain ⟨j, hj, rfl⟩ := hz
        exact ⟨x j, rfl, fun k hck hk => hzero j hj k (hj.trans_le hck) hk⟩
      | zero => exact ⟨0, rfl, fun k _ _ => by rw [map_zero, Pi.zero_apply]⟩
      | add z z' _ _ hz hz' =>
        obtain ⟨w, rfl, hw⟩ := hz
        obtain ⟨w', rfl, hw'⟩ := hz'
        refine ⟨w + w', rfl, fun k hck hk => ?_⟩
        rw [map_add, Pi.add_apply, hw k hck hk, hw' k hck hk, add_zero]
      | smul a z _ hz =>
        obtain ⟨w, rfl, hw⟩ := hz
        refine ⟨a • w, rfl, fun k hck hk => ?_⟩
        rw [map_smul, Pi.smul_apply, hw k hck hk, smul_zero]
    rw [dist_vec, ← hL, map_sub]
    refine Real.sqrt_le_sqrt (le_of_eq_of_le ?_ (tail_le_dot_self hc _))
    refine sum_congr rfl fun k hk => ?_
    obtain ⟨hck, hkn⟩ := mem_Ico.mp hk
    rw [Pi.sub_apply, hw k hck hkn, sub_zero]

/-- A coordinate in which the span vanishes. -/
theorem le_infDist_span {S : Set (EuclideanSpace ℝ (Fin n))} {i : Fin n} (h : ∀ v ∈ S, v i = 0)
    (x : EuclideanSpace ℝ (Fin n)) : |x i| ≤ Metric.infDist x (Submodule.span ℝ S) := by
  refine (Metric.le_infDist ⟨0, zero_mem _⟩).mpr fun y hy => ?_
  have hy0 : y i = 0 := by
    induction hy using span_induction with
    | mem v hv => exact h v hv
    | zero => rfl
    | add v w _ _ hv hw => rw [PiLp.add_apply, hv, hw, add_zero]
    | smul a v _ hv => rw [PiLp.smul_apply, hv, smul_zero]
  have hcoord := PiLp.norm_apply_le (x - y) i
  rw [PiLp.sub_apply, hy0, sub_zero] at hcoord
  exact hcoord

end Lib.Mirrors
