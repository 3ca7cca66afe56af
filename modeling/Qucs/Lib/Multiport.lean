/-
# Linear multiports and the elimination of a port pair

A multiport over a field has a list of ports, a matrix `S` and, at every port,
an incoming wave `a` and an outgoing wave `b`; it admits the waves with
`b = S a`. Tying two ports `k` and `l` together means `a k = b l` and
`a l = b k`. When the determinant of the two equations left for `a k` and
`a l` does not vanish, the tied multiport is again a multiport over the other
ports:

    admits S on k, l, rest  +  the tie     ⟹   admits `eliminate S k l` on rest
    admits `eliminate S k l` on rest       ⟹   the waves at k and l can be filled in

Two multiports side by side are one multiport with a block diagonal matrix
(`admits_block`), so a tie between two of them is the same operation.

A multiport with sources sends `c` out of its ports in addition, `b = S a + c`.
What leaves the other ports when two ports are tied is a linear image of the
sources (`isNoiseMap`), and what is known of the sources, such as their
correlations, is carried over by that map (`congruence_apply`).
-/
import Mathlib

namespace Lib.Multiport

open List Function

variable {ι κ K : Type*} [Field K]

/-- The waves `a`, `b` satisfy `b = S a` on the given ports. -/
def Admits (ports : List ι) (S : ι → ι → K) (a b : ι → K) : Prop :=
  ∀ i ∈ ports, b i = (ports.map fun j => S i j * a j).sum

variable {S : ι → ι → K} {a b : ι → K}

theorem Admits.perm {ports ports' : List ι}
    (h : Admits ports S a b) (hp : ports.Perm ports') : Admits ports' S a b := by
  intro i hi
  rw [h i (hp.mem_iff.mpr hi), (hp.map _).sum_eq]

variable {ports : List ι}

theorem Admits.congr {S S' : ι → ι → K} {a b a' b' : ι → K} (h : Admits ports S a b)
    (hS : ∀ i ∈ ports, ∀ j ∈ ports, S i j = S' i j) (ha : ∀ i ∈ ports, a i = a' i)
    (hb : ∀ i ∈ ports, b i = b' i) : Admits ports S' a' b' := by
  intro i hi
  rw [← hb i hi, h i hi]
  congr 1
  apply map_congr_left
  intro j hj
  rw [hS i hi j hj, ha j hj]

/-! ## Eliminating two ports -/

/-- The determinant of the two equations that the tie leaves for the waves at
`k` and `l`. -/
def denominator (S : ι → ι → K) (k l : ι) : K :=
  (1 - S k l) * (1 - S l k) - S k k * S l l

/-- The matrix of the multiport whose ports `k` and `l` are tied together. -/
def eliminate (S : ι → ι → K) (k l i j : ι) : K :=
  S i j + (S k j * S i l * (1 - S l k) + S l j * S i k * (1 - S k l) +
    S k j * S l l * S i k + S l j * S k k * S i l) / denominator S k l

theorem denominator_swap (S : ι → ι → K) (k l : ι) : denominator S l k = denominator S k l := by
  unfold denominator
  ring

/-- The wave that leaves port `k` when the tie is closed, from what the other
ports send to `k` and to `l`. -/
def tiedWave (S : ι → ι → K) (k l : ι) (toK toL : K) : K :=
  ((1 - S l k) * toK + S k k * toL) / denominator S k l

variable {k l : ι}

theorem tiedWave_eq (hd : denominator S k l ≠ 0) (p q : K) : tiedWave S k l p q =
      S k k * tiedWave S l k q p + (S k l * tiedWave S k l p q + p) := by
  unfold tiedWave
  rw [denominator_swap S k l]
  field_simp
  unfold denominator
  ring

theorem eq_tiedWave {x y p q : K} (hd : denominator S k l ≠ 0)
    (hx : x = S k k * y + (S k l * x + p)) (hy : y = S l k * y + (S l l * x + q)) :
    x = tiedWave S k l p q := by
  unfold tiedWave
  rw [eq_div_iff hd]
  unfold denominator
  linear_combination (1 - S l k) * hx + S k k * hy

/-- A row of the eliminated matrix, applied to the waves: the row of `S` itself,
with the tied waves at `k` and `l`. -/
theorem sum_eliminate (S : ι → ι → K) (k l i : ι) (a : ι → K) (rest : List ι) :
    (rest.map fun j => eliminate S k l i j * a j).sum =
      S i k * tiedWave S l k (rest.map fun j => S l j * a j).sum
          (rest.map fun j => S k j * a j).sum +
        (S i l * tiedWave S k l (rest.map fun j => S k j * a j).sum
          (rest.map fun j => S l j * a j).sum +
        (rest.map fun j => S i j * a j).sum) := by
  unfold tiedWave
  rw [denominator_swap S k l]
  induction rest with
  | nil => simp
  | cons j rest ih =>
    simp only [map_cons, sum_cons, ih]
    unfold eliminate
    ring

/-- **A multiport whose ports `k` and `l` are tied together** admits, on its
other ports, only the waves of the eliminated matrix. -/
theorem Admits.eliminate {rest : List ι}
    (hd : denominator S k l ≠ 0) (h : Admits (k :: l :: rest) S a b)
    (hk : a k = b l) (hl : a l = b k) : Admits rest (eliminate S k l) a b := by
  have bk := h k (by simp)
  have bl := h l (by simp)
  simp only [map_cons, sum_cons, hk, hl] at bk bl
  have xk := eq_tiedWave hd bk bl
  have xl := eq_tiedWave (denominator_swap S k l ▸ hd)
    (bl.trans (add_left_comm _ _ _)) (bk.trans (add_left_comm _ _ _))
  intro i hi
  have bi := h i (by simp [hi])
  simp only [map_cons, sum_cons, hk, hl] at bi
  rw [bi, sum_eliminate, ← xk, ← xl]

/-- **Conversely** the waves of the eliminated matrix extend to the tied
ports. -/
theorem Admits.of_eliminate [DecidableEq ι] {rest : List ι}
    (hd : denominator S k l ≠ 0) (hkl : k ≠ l) (hk : k ∉ rest) (hl : l ∉ rest)
    (h : Admits rest (Multiport.eliminate S k l) a b) :
    ∃ a' b', (∀ i ∈ rest, a i = a' i ∧ b i = b' i) ∧
      Admits (k :: l :: rest) S a' b' ∧ a' k = b' l ∧ a' l = b' k := by
  let p := (rest.map fun j => S k j * a j).sum
  let q := (rest.map fun j => S l j * a j).sum
  let x := tiedWave S k l p q
  let y := tiedWave S l k q p
  let a' := update (update a k y) l x
  let b' := update (update b k x) l y
  have ak : a' k = y := by simp [a', hkl]
  have al : a' l = x := by simp [a']
  have bk : b' k = x := by simp [b', hkl]
  have bl : b' l = y := by simp [b']
  have agree : ∀ i ∈ rest, a i = a' i ∧ b i = b' i := by
    intro i hi
    have hik : i ≠ k := fun e => hk (e ▸ hi)
    have hil : i ≠ l := fun e => hl (e ▸ hi)
    simp [a', b', hik, hil]
  have sums : ∀ i, (rest.map fun j => S i j * a' j).sum = (rest.map fun j => S i j * a j).sum := by
    intro i
    congr 1
    apply map_congr_left
    intro j hj
    rw [(agree j hj).1]
  refine ⟨a', b', agree, ?_, ak.trans bl.symm, al.trans bk.symm⟩
  intro i hi
  simp only [map_cons, sum_cons, sums, ak, al]
  rcases mem_cons.mp hi with rfl | hi
  · exact bk.trans (tiedWave_eq hd p q)
  · rcases mem_cons.mp hi with rfl | hi
    · have := tiedWave_eq (denominator_swap S k i ▸ hd) q p
      exact bl.trans (this.trans (add_left_comm _ _ _))
    · rw [← (agree i hi).2, h i hi, sum_eliminate]

/-! ## Two multiports side by side -/

def block (S : ι → ι → K) (T : κ → κ → K) : ι ⊕ κ → ι ⊕ κ → K
  | .inl i, .inl j => S i j
  | .inr i, .inr j => T i j
  | _, _ => 0

theorem admits_block {ports' : List κ} {T : κ → κ → K} {a b : ι ⊕ κ → K} :
    Admits (ports.map Sum.inl ++ ports'.map Sum.inr) (block S T) a b ↔
      Admits ports S (a ∘ Sum.inl) (b ∘ Sum.inl) ∧
      Admits ports' T (a ∘ Sum.inr) (b ∘ Sum.inr) := by
  simp [Admits, or_imp, forall_and, block, comp_def]

/-! ## Sources -/

section Sources

variable [Fintype ι]

/-- The waves of a multiport with the sources `c` whose ports `k` and `l` are tied
and whose other ports receive nothing. -/
structure Joined (S : Matrix ι ι K) (kept : κ → ι) (k l : ι) (c a b : ι → K) : Prop where
  waves : b = S.mulVec a + c
  tieK : a k = b l
  tieL : a l = b k
  quiet : ∀ i, a (kept i) = 0

/-- `T` gives what leaves the other ports. -/
structure IsNoiseMap (S : Matrix ι ι K) (kept : κ → ι) (k l : ι) (T : Matrix κ ι K) : Prop where
  exists_waves : ∀ c, ∃ a b, Joined S kept k l c a b
  outgoing : ∀ c a b, Joined S kept k l c a b → ∀ i, b (kept i) = T.mulVec c i

/-- What port `i` passes on of the source at `k`. -/
def viaTie (S : ι → ι → K) (k l i : ι) : K :=
  (S i l * (1 - S l k) + S l l * S i k) / denominator S k l

/-- The waves at the tied ports are all that a row of `S` sees. -/
theorem mulVec_of_tied {S : Matrix ι ι K} {k l : ι} (hkl : k ≠ l) {a : ι → K}
    (h : ∀ m, m ≠ k → m ≠ l → a m = 0) (i : ι) : S.mulVec a i = S i k * a k + S i l * a l :=
  Fintype.sum_eq_add k l hkl fun m hm => by rw [h m hm.1 hm.2, mul_zero]

variable [DecidableEq ι]

def noiseMap (S : Matrix ι ι K) (kept : κ → ι) (k l : ι) : Matrix κ ι K :=
  Matrix.of fun i m => (if m = kept i then 1 else 0) +
    ((if m = k then viaTie S k l (kept i) else 0) + if m = l then viaTie S l k (kept i) else 0)

theorem sum_noiseMap (S : Matrix ι ι K) (kept : κ → ι) (k l : ι) (f : ι → K) (i : κ) :
    ∑ m, noiseMap S kept k l i m * f m =
      f (kept i) + (viaTie S k l (kept i) * f k + viaTie S l k (kept i) * f l) := by
  simp [noiseMap, add_mul, Finset.sum_add_distrib]

variable {S : Matrix ι ι K} {kept : κ → ι} {k l : ι}

/-- **What leaves the joined multiport** is `noiseMap` of the sources. -/
theorem isNoiseMap (hd : denominator S k l ≠ 0) (hkl : k ≠ l)
    (hkept : ∀ m, m ≠ k → m ≠ l → ∃ i, kept i = m) (hne : ∀ i, kept i ≠ k ∧ kept i ≠ l) :
    IsNoiseMap S kept k l (noiseMap S kept k l) := by
  have hd' : denominator S l k ≠ 0 := denominator_swap S k l ▸ hd
  constructor
  case exists_waves =>
    intro c
    let x := tiedWave S k l (c k) (c l)
    let y := tiedWave S l k (c l) (c k)
    let a : ι → K := update (update 0 k y) l x
    have hk : a k = y := by simp [a, hkl]
    have hl : a l = x := by simp [a]
    have ha : ∀ m, m ≠ k → m ≠ l → a m = 0 := fun m hmk hml => by simp [a, hmk, hml]
    refine ⟨a, S.mulVec a + c, rfl, ?_, ?_, fun i => ha _ (hne i).1 (hne i).2⟩
    · rw [Pi.add_apply, mulVec_of_tied hkl ha, hk, hl]
      linear_combination tiedWave_eq hd' (c l) (c k)
    · rw [Pi.add_apply, mulVec_of_tied hkl ha, hk, hl]
      linear_combination tiedWave_eq hd (c k) (c l)
  case outgoing =>
    rintro c a b ⟨hb, hk, hl, hquiet⟩ i
    have ha : ∀ m, m ≠ k → m ≠ l → a m = 0 := by
      intro m hmk hml
      obtain ⟨j, rfl⟩ := hkept m hmk hml
      exact hquiet j
    have hrow : ∀ m, b m = S m k * b l + S m l * b k + c m := by
      intro m
      nth_rewrite 1 [hb]
      rw [Pi.add_apply, mulVec_of_tied hkl ha, hk, hl]
    have hx := eq_tiedWave hd ((hrow k).trans (add_assoc _ _ _)) ((hrow l).trans (add_assoc _ _ _))
    have hy := eq_tiedWave hd' (p := c l) (q := c k)
      ((hrow l).trans (by ring)) ((hrow k).trans (by ring))
    rw [hrow, Matrix.mulVec, dotProduct, sum_noiseMap, hx, hy]
    unfold viaTie tiedWave
    rw [denominator_swap S k l]
    ring

/-- A row of the map with the correlations of the sources. -/
theorem congruence_apply [StarRing K] (C : Matrix ι ι K) (i j : κ) :
    (noiseMap S kept k l * C * (noiseMap S kept k l).conjTranspose) i j =
      let row := fun m =>
        C (kept i) m + (viaTie S k l (kept i) * C k m + viaTie S l k (kept i) * C l m)
      row (kept j) +
        (star (viaTie S k l (kept j)) * row k + star (viaTie S l k (kept j)) * row l) := by
  have hrow : ∀ m, (noiseMap S kept k l * C) i m =
      C (kept i) m + (viaTie S k l (kept i) * C k m + viaTie S l k (kept i) * C l m) := fun m =>
    sum_noiseMap S kept k l (fun m' => C m' m) i
  rw [Matrix.mul_apply]
  simp only [hrow, Matrix.conjTranspose_apply]
  have hstar := congrArg star (sum_noiseMap S kept k l (fun m =>
    star (C (kept i) m + (viaTie S k l (kept i) * C k m + viaTie S l k (kept i) * C l m))) j)
  simpa only [star_sum, star_mul, star_add, star_star, mul_comm] using hstar

end Sources

end Lib.Multiport
