/-
# Both LU algorithms solve exactly

After the columns before `c` are done the matrix holds, in place, a lower
triangle L and an upper triangle U whose product gives these columns of the
original matrix with its rows in the order of the table; the other columns are
those of the original matrix, in that order (`Factored`). A column step keeps
this as long as it finds a pivot (`Factored.column`), and it does for a
nonsingular matrix: without a pivot the column would be a combination of those
before it (`Factored.exists_pivot`). With L and U in place the substitution
solves for any right-hand side, **whatever was solved before**
(`solveLu_exact`).
-/
import Qucs.Lib.Fold
import Qucs.Lib.Triangular
import Qucs.Linear.Lu

namespace Qucs.Linear

open Lib.InPlace Lib.Triangular List Ones
open Prod (mk snd)
open Finset (range Ico)

variable {K V : Type*} [Field K]

/-! ## The two triangles -/

namespace Ones

variable (ones : Ones) (A : ℕ × ℕ → K)

def lowerDiag : Ones → K → K
  | .crout, d => d
  | .doolittle, _ => 1

def upperDiag : Ones → K → K
  | .crout, _ => 1
  | .doolittle, d => d

def lower (i k : ℕ) : K :=
  if k < i then A (i, k) else if k = i then ones.lowerDiag (A (i, i)) else 0

def upper (k j : ℕ) : K :=
  if k < j then A (k, j) else if k = j then ones.upperDiag (A (k, k)) else 0

variable {ones A}

theorem lowerDiag_mul_byLower {f d : K} (hd : d ≠ 0) : ones.lowerDiag d * ones.byLower f d = f := by
  cases ones with
  | crout => exact mul_div_cancel₀ f hd
  | doolittle => exact one_mul f

theorem upperDiag_mul_byUpper {f d : K} (hd : d ≠ 0) : ones.upperDiag d * ones.byUpper f d = f := by
  cases ones with
  | crout => exact one_mul f
  | doolittle => exact mul_div_cancel₀ f hd

theorem upperDiag_ne_zero {d : K} (hd : d ≠ 0) : ones.upperDiag d ≠ 0 := by
  cases ones with
  | crout => exact one_ne_zero
  | doolittle => exact hd

theorem lower_of_lt {i k : ℕ} (h : k < i) : ones.lower A i k = A (i, k) := if_pos h

theorem lower_self (i : ℕ) : ones.lower A i i = ones.lowerDiag (A (i, i)) := by
  rw [lower, if_neg (lt_irrefl i), if_pos rfl]

theorem lower_of_gt {i k : ℕ} (h : i < k) : ones.lower A i k = 0 := by
  rw [lower, if_neg (by omega), if_neg (by omega)]

theorem upper_of_lt {k j : ℕ} (h : k < j) : ones.upper A k j = A (k, j) := if_pos h

theorem upper_self (k : ℕ) : ones.upper A k k = ones.upperDiag (A (k, k)) := by
  rw [upper, if_neg (lt_irrefl k), if_pos rfl]

theorem upper_of_gt {k j : ℕ} (h : j < k) : ones.upper A k j = 0 := by
  rw [upper, if_neg (by omega), if_neg (by omega)]

end Ones

/-! ## One column -/

section Column

variable {ones : Ones} {A : ℕ × ℕ → K} {c r : ℕ}

theorem remainder_eq (A : ℕ × ℕ → K) (r c n : ℕ) :
    remainder A r c n = A (r, c) - ∑ k ∈ range n, A (r, k) * A (k, c) := foldl_sub_range ..

theorem upperEntries_of_ne {q : ℕ × ℕ} (h : q.2 ≠ c ∨ c ≤ q.1) : upperEntries ones c A q = A q := by
  refine sweep_of_ne fun r hr => ?_
  rintro rfl
  have := mem_range.mp hr
  omega

/-- The upper entries of a column solve a lower triangular system. -/
theorem upperEntries_row (hr : r < c) (hd : A (r, r) ≠ 0) :
    ∑ k ∈ range r, A (r, k) * upperEntries ones c A (k, c) +
      ones.lowerDiag (A (r, r)) * upperEntries ones c A (r, c) = A (r, c) := by
  obtain ⟨z, hz, hdone, hout⟩ := sweep_range (fun r => (r, c))
    (fun r A => ones.byLower (remainder A r c r) (A (r, r))) A (fun _ _ _ _ h => (mk.inj h).1) hr
  have hrow : ∀ k ≤ r, z (r, k) = A (r, k) := by
    intro k _
    refine hout _ fun j hj h => ?_
    have := (mk.inj h).1
    omega
  have hcol : z (r, c) = A (r, c) := by
    refine hout _ fun j hj h => ?_
    have := (mk.inj h).1
    omega
  have hval : upperEntries ones c A (r, c) = ones.byLower
      (A (r, c) - ∑ k ∈ range r, A (r, k) * upperEntries ones c A (k, c)) (A (r, r)) := by
    rw [upperEntries, hz, remainder_eq, hcol, hrow r le_rfl]
    congr 2
    refine Finset.sum_congr rfl fun k hk => ?_
    have hk := Finset.mem_range.mp hk
    rw [hrow k hk.le]
    exact congrArg _ (hdone k hk)
  rw [hval, lowerDiag_mul_byLower hd]
  ring

variable [Field V] [LinearOrder V] [IsStrictOrderedRing V] {m : Magnitude K V} {N : ℕ}
  {nPvt : ℕ → V}

/-- The search after some rows: their entries are computed, and the pivot is one
of them unless all of them vanish. -/
structure Searched (A : ℕ × ℕ → K) (c : ℕ) (done : List ℕ) (s : Search K V) : Prop where
  other : ∀ q, (∀ r ∈ done, (r, c) ≠ q) → s.A q = A q
  entry : ∀ r ∈ done, s.A (r, c) = A (r, c) - ∑ k ∈ range c, A (r, k) * A (k, c)
  pivot : (s.maxPivot = 0 ∧ ∀ r ∈ done, s.A (r, c) = 0) ∨
    (0 < s.maxPivot ∧ s.pivot ∈ done ∧ s.A (s.pivot, c) ≠ 0)

theorem Searched.step {done : List ℕ} {s : Search K V} (h : Searched A c done s)
    (hdone : ∀ k ∈ done, c ≤ k) (hnew : r ∉ done) (hpvt : 0 < nPvt r) :
    Searched A c (done ++ [r]) (lowerEntry m nPvt c s r) := by
  have hf : remainder s.A r c c = A (r, c) - ∑ k ∈ range c, A (r, k) * A (k, c) := by
    have hself : s.A (r, c) = A (r, c) := by
      refine h.other _ fun k hk heq => hnew ?_
      rwa [← (mk.inj heq).1]
    rw [remainder_eq, hself]
    congr 1
    refine Finset.sum_congr rfl fun k hk => ?_
    have hk := Finset.mem_range.mp hk
    rw [h.other (r, k) fun j hj heq => ?_, h.other (k, c) fun j hj heq => ?_]
    · have := hdone j hj
      have := (mk.inj heq).1
      omega
    · have := (mk.inj heq).2
      omega
  have hkeep : ∀ k ∈ done, (lowerEntry m nPvt c s r).A (k, c) = s.A (k, c) := by
    intro k hk
    refine Function.update_of_ne ?_ _ _
    rintro ⟨⟩
    exact hnew hk
  have hself : (lowerEntry m nPvt c s r).A (r, c) = remainder s.A r c c := Function.update_self ..
  constructor
  case other =>
    intro q hq
    rw [forall_mem_append, forall_mem_singleton] at hq
    exact (Function.update_of_ne hq.2.symm _ _).trans (h.other q hq.1)
  case entry =>
    rw [forall_mem_append, forall_mem_singleton]
    exact ⟨fun k hk => (hkeep k hk).trans (h.entry k hk), hself.trans hf⟩
  case pivot =>
    by_cases hd : nPvt r * m.abs (remainder s.A r c c) > s.maxPivot
    · have hmax : 0 ≤ s.maxPivot := by
        rcases h.pivot with ⟨hzero, -⟩ | ⟨hpos, -⟩
        · exact hzero.ge
        · exact hpos.le
      have hpos := hmax.trans_lt hd
      refine .inr ?_
      simp only [lowerEntry, if_pos hd, Function.update_self]
      exact ⟨hpos, by simp, (m.abs_pos _).mp ((mul_pos_iff_of_pos_left hpvt).mp hpos)⟩
    · have hmax : (lowerEntry m nPvt c s r).maxPivot = s.maxPivot := if_neg hd
      rcases h.pivot with ⟨hzero, hall⟩ | ⟨hpos, hp, hne⟩
      · have hvanish : remainder s.A r c c = 0 := by
          by_contra hne
          rw [hzero] at hd
          exact hd (mul_pos hpvt ((m.abs_pos _).mpr hne))
        refine .inl ⟨hmax.trans hzero, ?_⟩
        rw [forall_mem_append, forall_mem_singleton]
        exact ⟨fun k hk => (hkeep k hk).trans (hall k hk), hself.trans hvanish⟩
      · have hpivot : (lowerEntry m nPvt c s r).pivot = s.pivot := if_neg hd
        refine .inr ⟨hmax ▸ hpos, ?_, ?_⟩
        · rw [hpivot]
          exact mem_append_left _ hp
        · rw [hpivot, hkeep _ hp]
          exact hne

/-- The lower entries of a column, and the pivot among them. -/
theorem lowerEntries_searched (hpvt : ∀ r, 0 < nPvt r) (c : ℕ) (A : ℕ × ℕ → K) :
    Searched A c (List.range' c (N - c)) (lowerEntries m N nPvt c A) := by
  have hmem : ∀ r ∈ range' c (N - c), c ≤ r := fun r hr => (mem_range'_1.mp hr).1
  refine Lib.Fold.foldl_rule
    ⟨fun _ _ => rfl, fun _ h => absurd h not_mem_nil,
      .inl ⟨rfl, fun _ h => absurd h not_mem_nil⟩⟩ ?_
  intro done r rest hlist hdone
  have hnodup : (done ++ r :: rest).Nodup := hlist ▸ nodup_range' ..
  refine hdone.step (fun k hk => hmem k (hlist ▸ mem_append_left _ hk)) ?_ (hpvt r)
  exact fun hr => disjoint_of_nodup_append hnodup hr mem_cons_self

/-- The entries below the pivot, divided or not: L times the diagonal of U. -/
theorem divideByPivot_spec (ones : Ones) {A : ℕ × ℕ → K} {c : ℕ} (hd : A (c, c) ≠ 0) :
    (∀ q, (q.2 ≠ c ∨ q.1 ≤ c) → divideByPivot N c ones A q = A q) ∧
    ∀ i, c ≤ i → i < N → ones.lower (divideByPivot N c ones A) i c *
      ones.upperDiag (divideByPivot N c ones A (c, c)) = A (i, c) := by
  have hlast : ∀ ones : Ones, ones.lower A c c * ones.upperDiag (A (c, c)) = A (c, c) := by
    intro ones
    rw [lower_self]
    cases ones with
    | crout => exact mul_one _
    | doolittle => exact one_mul _
  cases ones with
  | crout =>
    refine ⟨fun _ _ => rfl, fun i hc _ => ?_⟩
    rcases Nat.eq_or_lt_of_le hc with rfl | hlt
    · exact hlast .crout
    · exact (mul_one _).trans (lower_of_lt hlt)
  | doolittle =>
    rw [divideByPivot]
    split
    case isFalse hN =>
      refine ⟨fun _ _ => rfl, fun i hc hi => ?_⟩
      obtain rfl : i = c := by omega
      exact hlast .doolittle
    case isTrue =>
      have hout : ∀ q : ℕ × ℕ, (q.2 ≠ c ∨ q.1 ≤ c) →
          sweep (range' (c + 1) (N - (c + 1))) (fun r => (r, c))
            (fun r A' => A' (r, c) * (1 / A (c, c))) A q = A q := by
        intro q hq
        refine sweep_of_ne fun r hr => ?_
        rintro rfl
        have := (mem_range'_1.mp hr).1
        omega
      refine ⟨hout, fun i hc hi => ?_⟩
      have hcc := hout (c, c) (.inr le_rfl)
      rcases Nat.eq_or_lt_of_le hc with rfl | hlt
      · rw [lower_self, hcc, ← lower_self]
        exact hlast .doolittle
      · obtain ⟨z, hz, -, hother⟩ := sweep_range' (fun r => (r, c))
          (fun r A' => A' (r, c) * (1 / A (c, c))) A (fun _ _ _ _ h => (mk.inj h).1)
          (n := N - (c + 1)) hlt (by omega)
        have hzi : z (i, c) = A (i, c) := by
          refine hother _ fun j _ hj heq => ?_
          have := (mk.inj heq).1
          omega
        rw [lower_of_lt hlt, hcc, hz, hzi]
        show A (i, c) * (1 / A (c, c)) * A (c, c) = A (i, c)
        rw [mul_one_div, div_mul_cancel₀ _ hd]

end Column

/-! ## All columns -/

section Factored

variable [Field V] [LinearOrder V] {N : ℕ} {ones : Ones} {A₀ : ℕ × ℕ → K} {c : ℕ} {s : Factors K V}

/-- The columns before `c` are factored. -/
structure Factored (N : ℕ) (ones : Ones) (A₀ : ℕ × ℕ → K) (c : ℕ) (s : Factors K V) : Prop where
  onto : ∀ i < N, ∃ i' < N, s.rMap i' = i
  pvt : ∀ r, 0 < s.nPvt r
  diag : ∀ k < c, s.A (k, k) ≠ 0
  product : ∀ i < N, ∀ j < c,
    ∑ k ∈ range N, ones.lower s.A i k * ones.upper s.A k j = A₀ (s.rMap i, j)
  other : ∀ i < N, ∀ j, c ≤ j → j < N → s.A (i, j) = A₀ (s.rMap i, j)
  quiet : s.exceptions = []

theorem Factored.product_lt (h : Factored N ones A₀ c s) (hc : c ≤ N) {i j : ℕ} (hi : i < N)
    (hj : j < c) : ∑ k ∈ range c, ones.lower s.A i k * ones.upper s.A k j = A₀ (s.rMap i, j) := by
  rw [← h.product i hi j hj]
  refine Finset.sum_subset (Finset.range_mono hc) fun k _ hk => ?_
  rw [upper_of_gt (by rw [Finset.mem_range] at hk; omega), mul_zero]

/-- What a column step with the pivot `p` does: the rows `c` and `p` change
places, and the column is the one that the search has left, divided or not. -/
theorem factorizeColumn_eq {m : Magnitude K V} {low : Search K V}
    (hlow : low = lowerEntries m N s.nPvt c (upperEntries ones c s.A)) (hpos : 0 < low.maxPivot) :
    factorizeColumn m N ones s c =
      { A := divideByPivot N c ones fun q => low.A (Equiv.swap c low.pivot q.1, q.2)
        rMap := s.rMap ∘ Equiv.swap c low.pivot
        nPvt := s.nPvt ∘ Equiv.swap c low.pivot
        exceptions := s.exceptions } := by
  rw [factorizeColumn, ← hlow]
  simp only [if_neg (not_le.mpr hpos)]
  have hswap : (if c ≠ low.pivot then swapRows c low.pivot { s with A := low.A }
      else { s with A := low.A }) = swapRows c low.pivot { s with A := low.A } := by
    split
    case isTrue => rfl
    case isFalse heq => rw [← not_not.mp heq, swapRows_self]
  rw [hswap]
  rfl

variable [IsStrictOrderedRing V] {m : Magnitude K V}

theorem exchangeTable_factored (A : ℕ × ℕ → K) : Factored N ones A 0 (exchangeTable m N A) := by
  constructor
  case onto => exact fun i hi => ⟨i, hi, rfl⟩
  case pvt =>
    intro r
    refine one_div_pos.mpr ?_
    split
    · exact m.tiny_pos
    · rename_i h
      exact not_le.mp h
  case diag => exact fun k hk => absurd hk (Nat.not_lt_zero k)
  case product => exact fun i _ j hj => absurd hj (Nat.not_lt_zero j)
  case other => exact fun i _ j _ _ => rfl
  case quiet => rfl

/-- The lower entries of the column, and what L makes of the upper ones. -/
theorem Factored.lower_upperEntries (h : Factored N ones A₀ c s) (hc : c < N) {r : ℕ} (hr : r < N) :
    ∑ k ∈ range c, ones.lower s.A r k * upperEntries ones c s.A (k, c) +
      (if c ≤ r then (lowerEntries m N s.nPvt c (upperEntries ones c s.A)).A (r, c) else 0) =
        A₀ (s.rMap r, c) := by
  rw [← h.other r hr c le_rfl hc]
  split
  case isTrue hcr =>
    have hentry := (lowerEntries_searched (m := m) h.pvt c (upperEntries ones c s.A)).entry r
      (mem_range'_1.mpr (by omega : c ≤ r ∧ r < c + (N - c)))
    rw [hentry, upperEntries_of_ne (.inr hcr)]
    have hsum : ∑ k ∈ range c, upperEntries ones c s.A (r, k) * upperEntries ones c s.A (k, c) =
        ∑ k ∈ range c, ones.lower s.A r k * upperEntries ones c s.A (k, c) := by
      refine Finset.sum_congr rfl fun k hk => ?_
      have hk := Finset.mem_range.mp hk
      rw [upperEntries_of_ne (.inr hcr), lower_of_lt (by omega)]
    rw [hsum]
    ring
  case isFalse hcr =>
    have hrc : r < c := not_le.mp hcr
    rw [add_zero, sum_lower (fun k hk => lower_of_gt hk) hrc, lower_self,
      ← upperEntries_row hrc (h.diag r hrc)]
    congr 1
    refine Finset.sum_congr rfl fun k hk => ?_
    rw [lower_of_lt (Finset.mem_range.mp hk)]

/-- **There is a pivot**: otherwise the column would be a combination of the
columns before it. -/
theorem Factored.exists_pivot (h : Factored N ones A₀ c s) (hA : Nonsingular N A₀) (hc : c < N) :
    ¬∀ r, c ≤ r → r < N → (lowerEntries m N s.nPvt c (upperEntries ones c s.A)).A (r, c) = 0 := by
  intro hzero
  obtain ⟨x, hx⟩ := exists_upper
    (fun k j hj => upper_of_gt hj)
    (fun k hk => by
      rw [upper_self]
      exact upperDiag_ne_zero (h.diag k hk))
    fun k => upperEntries ones c s.A (k, c)
  have hnull := hA (fun j => if j < c then x j else if j = c then -1 else 0) ?_ c hc
  · simp at hnull
  · intro i hi
    obtain ⟨r, hr, rfl⟩ := h.onto i hi
    have hcol : ∑ k ∈ range c, ones.lower s.A r k * upperEntries ones c s.A (k, c) =
        A₀ (s.rMap r, c) := by
      rw [← h.lower_upperEntries hc hr]
      split
      case isTrue hcr => rw [hzero r hcr hr, add_zero]
      case isFalse => rw [add_zero]
    have hcomb : ∑ j ∈ range c, A₀ (s.rMap r, j) * x j = A₀ (s.rMap r, c) := by
      rw [← solve_mul (b := fun _ => A₀ (s.rMap r, c)) hcol hx]
      refine Finset.sum_congr rfl fun j hj => ?_
      rw [h.product_lt hc.le hr (Finset.mem_range.mp hj)]
    rw [← Finset.sum_range_add_sum_Ico _ hc.le, Finset.sum_eq_sum_Ico_succ_bot hc]
    have hleft : ∑ j ∈ range c, A₀ (s.rMap r, j) *
        (if j < c then x j else if j = c then -1 else 0) = A₀ (s.rMap r, c) := by
      rw [← hcomb]
      refine Finset.sum_congr rfl fun j hj => ?_
      rw [if_pos (Finset.mem_range.mp hj)]
    have hright : ∑ j ∈ Ico (c + 1) N, A₀ (s.rMap r, j) *
        (if j < c then x j else if j = c then -1 else 0) = 0 := by
      refine Finset.sum_eq_zero fun j hj => ?_
      have := (Finset.mem_Ico.mp hj).1
      rw [if_neg (by omega), if_neg (by omega), mul_zero]
    rw [hleft, hright, if_neg (lt_irrefl c), if_pos rfl]
    ring

/-- **One column more.** -/
theorem Factored.column (h : Factored N ones A₀ c s) (hA : Nonsingular N A₀) (hc : c < N) :
    Factored N ones A₀ (c + 1) (factorizeColumn m N ones s c) := by
  have hsearch := lowerEntries_searched (m := m) (N := N) h.pvt c (upperEntries ones c s.A)
  have hmem : ∀ r, r ∈ range' c (N - c) ↔ c ≤ r ∧ r < N := by
    intro r
    rw [mem_range'_1]
    omega
  have hcol := fun {r} => h.lower_upperEntries (m := m) hc (r := r)
  have hpivot := h.exists_pivot (m := m) hA hc
  generalize hlow : lowerEntries m N s.nPvt c (upperEntries ones c s.A) = low at hsearch hcol hpivot
  obtain ⟨-, hzero⟩ | ⟨hpos, hp, hne⟩ := hsearch.pivot
  · exact absurd (fun r hcr hr => hzero r ((hmem r).mpr ⟨hcr, hr⟩)) hpivot
  obtain ⟨hcp, hpN⟩ := (hmem _).mp hp
  rw [factorizeColumn_eq hlow.symm hpos]
  generalize hσ : Equiv.swap c low.pivot = σ
  have hσlt : ∀ k < c, σ k = k := by
    intro k hk
    rw [← hσ]
    exact Equiv.swap_apply_of_ne_of_ne (by omega) (by omega)
  have hσge : ∀ i, c ≤ i → i < N → c ≤ σ i ∧ σ i < N := by
    intro i hi hiN
    rw [← hσ, Equiv.swap_apply_def]
    split_ifs <;> omega
  have hσN : ∀ i < N, σ i < N := by
    intro i hi
    rcases Nat.lt_or_ge i c with hic | hic
    · rw [hσlt i hic]
      exact hi
    · exact (hσge i hic hi).2
  have hdiag : low.A (σ c, c) ≠ 0 := by
    rw [← hσ, Equiv.swap_apply_left]
    exact hne
  obtain ⟨hsame, hbelow⟩ := divideByPivot_spec (N := N) ones
    (A := fun q => low.A (σ q.1, q.2)) hdiag
  generalize divideByPivot N c ones (fun q => low.A (σ q.1, q.2)) = A' at hsame hbelow ⊢
  have hcell : ∀ i j, j ≠ c → A' (i, j) = s.A (σ i, j) := by
    intro i j hj
    rw [hsame (i, j) (.inl hj)]
    refine (hsearch.other _ fun r _ heq => hj (mk.inj heq).2.symm).trans ?_
    exact upperEntries_of_ne (.inl hj)
  have hupper : ∀ k < c, A' (k, c) = upperEntries ones c s.A (k, c) := by
    intro k hk
    rw [hsame (k, c) (.inr hk.le)]
    refine (hsearch.other _ fun r hr heq => ?_).trans (by rw [hσlt k hk])
    have := ((hmem r).mp hr).1
    have := (mk.inj heq).1
    rw [hσlt k hk] at this
    omega
  have hlowerEq : ∀ i < N, ∀ k < c, ones.lower A' i k = ones.lower s.A (σ i) k := by
    intro i hi k hk
    rcases Nat.lt_or_ge i c with hic | hic
    · rw [hσlt i hic, lower, lower, hcell i k hk.ne, hcell i i hic.ne, hσlt i hic]
    · rw [lower_of_lt (by omega), lower_of_lt (by have := hσge i hic hi; omega),
        hcell i k hk.ne]
  constructor
  case onto =>
    intro i hi
    obtain ⟨i', hi', rfl⟩ := h.onto i hi
    refine ⟨σ i', hσN i' hi', ?_⟩
    show s.rMap (σ (σ i')) = s.rMap i'
    rw [← hσ, Equiv.swap_apply_self]
  case pvt => exact fun r => h.pvt (σ r)
  case diag =>
    intro k hk
    dsimp only
    rcases Nat.lt_succ_iff_lt_or_eq.mp hk with hk | rfl
    · rw [hcell k k hk.ne, hσlt k hk]
      exact h.diag k hk
    · rw [hsame (k, k) (.inr le_rfl)]
      exact hdiag
  case product =>
    intro i hi j hj
    dsimp only [Function.comp_apply]
    rcases Nat.lt_succ_iff_lt_or_eq.mp hj with hj | rfl
    · rw [← h.product (σ i) (hσN i hi) j hj]
      refine Finset.sum_congr rfl fun k _ => ?_
      rcases Nat.lt_or_ge j k with hjk | hjk
      · rw [upper_of_gt hjk, upper_of_gt hjk, mul_zero, mul_zero]
      · have hk : k < c := by omega
        rw [hlowerEq i hi k hk, upper, upper, hcell k j hj.ne, hcell k k hk.ne, hσlt k hk]
    · rw [← hcol (hσN i hi), sum_column (fun k hk => upper_of_gt hk) hc]
      congr 1
      · refine Finset.sum_congr rfl fun k hk => ?_
        have hk := Finset.mem_range.mp hk
        rw [hlowerEq i hi k hk, upper_of_lt hk, hupper k hk]
      · rcases Nat.lt_or_ge i j with hij | hij
        · rw [lower_of_gt hij, zero_mul, hσlt i hij, if_neg (by omega)]
        · rw [upper_self, hbelow i hij hi, if_pos (hσge i hij hi).1]
  case other =>
    intro i hi j hj hjN
    dsimp only
    rw [hcell i j (by omega)]
    exact h.other (σ i) (hσN i hi) j (by omega) hjN
  case quiet => exact h.quiet

/-- **The whole factorisation** of a nonsingular matrix. -/
theorem factorizeLu_factored (hA : Nonsingular N A₀) :
    Factored N ones A₀ N (factorizeLu m N ones A₀) := by
  have upTo : ∀ c ≤ N, Factored N ones A₀ c
      ((List.range c).foldl (factorizeColumn m N ones) (exchangeTable m N A₀)) := by
    intro c
    induction c with
    | zero =>
      intro _
      exact exchangeTable_factored A₀
    | succ c ih =>
      intro hc
      rw [range_succ, foldl_append]
      exact (ih (by omega)).column hA hc
  exact upTo N le_rfl

end Factored

/-! ## Substitution -/

section Substitute

variable [Field V] [LinearOrder V] {N : ℕ} {ones : Ones} {A₀ : ℕ × ℕ → K} {s : Factors K V}
  {B X : ℕ → K}

variable (h : Factored N ones A₀ N s)
include h

/-- The forward substitution solves with L, through the table. -/
theorem Factored.forward {r : ℕ} (hr : r < N) :
    ∑ k ∈ range N, ones.lower s.A r k * sweep (List.range N) id
      (fun i X => ones.byLower
        ((List.range i).foldl (fun f c => f - s.A (i, c) * X c) (B (s.rMap i))) (s.A (i, i)))
      X k = B (s.rMap r) := by
  refine forward_solves id (b := fun i => B (s.rMap i)) (fun i k => lower_of_gt)
    (fun _ _ _ _ h => h) (fun i hi z _ => ?_) hr
  rw [lower_self, lowerDiag_mul_byLower (h.diag i hi), foldl_sub_range]
  congr 1
  refine Finset.sum_congr rfl fun k hk => ?_
  rw [lower_of_lt (Finset.mem_range.mp hk)]
  rfl

/-- The backward substitution solves with U, in place. -/
theorem Factored.backward {Y : ℕ → K} {k : ℕ} (hk : k < N) :
    ∑ j ∈ range N, ones.upper s.A k j * sweep (List.range N).reverse id
      (fun i X => ones.byUpper
        ((List.range' (i + 1) (N - (i + 1))).foldl (fun f c => f - s.A (i, c) * X c) (X i))
        (s.A (i, i))) Y j = Y k := by
  refine backward_solves id (fun i j => upper_of_gt) (fun _ _ _ _ h => h) (fun i hi z hz => ?_) hk
  have hself := hz i fun j hij _ => hij.ne'
  rw [upper_self, upperDiag_mul_byUpper (h.diag i hi), foldl_sub_range', hself,
    Nat.add_sub_cancel' hi]
  congr 1
  refine Finset.sum_congr rfl fun j hj => ?_
  rw [upper_of_lt (Finset.mem_Ico.mp hj).1]
  rfl

/-- **Substitution with the two triangles** solves for the original matrix. -/
theorem Factored.substitute (B X : ℕ → K) {i : ℕ} (hi : i < N) :
    ∑ j ∈ range N, A₀ (i, j) * substituteLu N ones s B X j = B i := by
  obtain ⟨r, hr, rfl⟩ := h.onto i hi
  have hsolve := solve_mul (b := fun r => B (s.rMap r)) (h.forward (X := X) hr)
    fun k hk => h.backward hk
  rw [← hsolve]
  refine Finset.sum_congr rfl fun j hj => ?_
  rw [h.product r hr j (Finset.mem_range.mp hj)]
  rfl

end Substitute

/-! ## The equation system -/

namespace EqnSys

variable [Field V] [LinearOrder V] [IsStrictOrderedRing V] {m : Magnitude K V} {n : ℕ}
  {A : Matrix (Fin n) (Fin n) K}

/-- The system between two calls: its matrix is factored. -/
structure Ready (ones : Ones) (A : Matrix (Fin n) (Fin n) K) (s : EqnSys K V) : Prop where
  size : s.N = n
  factored : Factored n ones (cells A) n s.factors

/-- A call for `b` leaves the solution and the factors behind. -/
structure Solved (ones : Ones) (A : Matrix (Fin n) (Fin n) K) (b : Fin n → K) (s : EqnSys K V) :
    Prop extends Ready ones A s where
  solution : A.mulVec (fun i => s.X i) = b

omit [IsStrictOrderedRing V] in
theorem solved_of_ready {ones : Ones} {s : EqnSys K V} (h : Ready ones A s) (b : Fin n → K)
    (hB : s.B = entries b) :
    Solved ones A b { s with X := substituteLu s.N ones s.factors s.B s.X } := by
  refine ⟨⟨h.size, h.factored⟩, ?_⟩
  funext i
  rw [← sum_cells, h.size, h.factored.substitute _ _ i.isLt, hB, entries_apply]

theorem solveWith_new (hA : A.det ≠ 0) (ones : Ones) (s : EqnSys K V) (x : ℕ → K) (b : Fin n → K) :
    Solved ones A b (solveWith (fun N => factorizeLu m N ones) (fun N => substituteLu N ones)
      (s.passEquationSys (some (n, cells A)) x (entries b))) :=
  solved_of_ready (s := { s with
      N := n, factors := factorizeLu m n ones (cells A), B := entries b, X := x, update := true })
    ⟨rfl, factorizeLu_factored (nonsingular_cells hA)⟩ b rfl

omit [IsStrictOrderedRing V] in
theorem solveWith_again {ones : Ones} {s : EqnSys K V} (h : Ready ones A s) (x : ℕ → K)
    (b : Fin n → K) :
    Solved ones A b (solveWith (fun N => factorizeLu m N ones) (fun N => substituteLu N ones)
      (s.passEquationSys none x (entries b))) :=
  solved_of_ready (s := { s with B := entries b, X := x, update := false })
    ⟨h.size, h.factored⟩ b rfl

theorem solveInTurn_solved (hA : A.det ≠ 0) (ones : Ones) (s : EqnSys K V) (x : ℕ → K)
    (b : Fin n → K) (later : List ((ℕ → K) × (Fin n → K))) :
    Solved ones A ((b :: later.map snd).getLast (List.cons_ne_nil _ _))
      (solveInTurn (solveWith (fun N => factorizeLu m N ones) fun N => substituteLu N ones)
        A s x b later) := by
  induction later using reverseRecOn with
  | nil => exact solveWith_new hA ones s x b
  | append_singleton later next ih =>
    have hnext := solveWith_again (m := m) ih.toReady next.1 next.2
    simpa [solveInTurn, foldl_append] using hnext

/-- **Both LU algorithms solve exactly**, for the matrix that was passed and for
every right-hand side that is passed after it without a matrix. -/
theorem solveLu_exact (m : Magnitude K V) (solve : EqnSys K V → EqnSys K V)
    (hsolve : solve = solveLuCrout m ∨ solve = solveLuDoolittle m)
    (A : Matrix (Fin n) (Fin n) K) (hA : A.det ≠ 0) (s : EqnSys K V) (x : ℕ → K) (b : Fin n → K)
    (later : List ((ℕ → K) × (Fin n → K))) :
    A.mulVec (fun i => (solveInTurn solve A s x b later).X i) =
      (b :: later.map snd).getLast (List.cons_ne_nil _ _) := by
  rcases hsolve with rfl | rfl
  · exact (solveInTurn_solved hA .crout s x b later).solution
  · exact (solveInTurn_solved hA .doolittle s x b later).solution

def rationals : Magnitude ℚ ℚ where
  abs := abs
  abs_pos x := by simp
  tiny := 1 / 10 ^ 30
  tiny_pos := by norm_num
  resistance := 1 / 10 ^ 30

/-- Two rows that are exchanged, and a second right-hand side. -/
theorem solveLu_exact_exchange :
    (!![0, 1; 2, 3] : Matrix (Fin 2) (Fin 2) ℚ).det ≠ 0 ∧
      (!![0, 1; 2, 3] : Matrix (Fin 2) (Fin 2) ℚ).mulVec (fun i =>
        (solveInTurn (solveLuCrout rationals) !![0, 1; 2, 3] fresh 0 ![1, 1] [(0, ![5, 7])]).X i) =
          ![5, 7] := by
  have hdet : (!![0, 1; 2, 3] : Matrix (Fin 2) (Fin 2) ℚ).det ≠ 0 := by
    norm_num [Matrix.det_fin_two]
  exact ⟨hdet, solveLu_exact rationals _ (.inl rfl) _ hdet fresh 0 ![1, 1] [(0, ![5, 7])]⟩

end EqnSys

end Qucs.Linear
