/-
# The matrix data of IC-CAP model files

`check_mdl.cpp`. Matrix data come as a list of points, each with its row
and its column.

* struct mdl_point_t: `Point`
* vector, in the dataset: `DataVector`
-/
import Mathlib

namespace Qucs.Convert.Mdl

open List

abbrev Text : Type := List Char

/-- A value with its row and its column. -/
structure Point (V : Type*) where
  x : ℕ
  y : ℕ
  value : V
  deriving DecidableEq

/-- A vector of the dataset. One with dependencies is a variable, one without them an
independent vector. -/
structure DataVector (V : Type*) where
  name : Text
  values : List V
  dependencies : Option (List Text)
  deriving DecidableEq

/-- The place of a position in the array of vectors. -/
def place (x y : ℕ) : ℤ := ((y : ℤ) - 1) * 2 + x - 1

/-- The type of the data as it ends the names. -/
def typeText (type : Text) : Text :=
  if type = "MEAS".toList then ".M".toList
  else if type = "SIMU".toList then ".S".toList
  else if type = "COMMON".toList then []
  else type

section Points

variable {V : Type*}

/-- The array has `size` vectors, from 0 on. -/
def InArray (size : ℕ) (n : ℤ) : Prop := 0 ≤ n ∧ n < size

instance (size : ℕ) (n : ℤ) : Decidable (InArray size n) := inferInstanceAs (Decidable (_ ∧ _))

/-- The value of a point goes to the end of a vector. There is none beyond the array. -/
def addPoint (size : ℕ) (v : ℤ → List V) (p : Point V) : Option (ℤ → List V) :=
  if InArray size (place p.x p.y) then
    some (Function.update v (place p.x p.y) (v (place p.x p.y) ++ [p.value]))
  else none

/-- The positions in the order of the two loops. -/
def positions (x y : ℕ) : List (ℕ × ℕ) := (range' 1 x).flatMap fun i => (range' 1 y).map (i, ·)

/-- The indices stand in the name of a vector unless it is the only one. -/
def vectorName (x y : ℕ) (name type : Text) (i j : ℕ) : Text :=
  if 1 < x ∨ 1 < y then
    name ++ typeText type ++ "[".toList ++ Nat.toDigits 10 i ++ ",".toList ++ Nat.toDigits 10 j ++
      "]".toList
  else name ++ typeText type

/-- A vector with more than one value is a variable. -/
def dataVector (name : Text) (deps : List Text) (values : List V) : DataVector V :=
  ⟨name, values, if 1 < values.length then some deps else none⟩

/-- Every vector gets its name, which there has to be a vector for. -/
def createVardataset (point : List (Point V)) (x y : ℕ) (name type : Text) (deps : List Text) :
    Option (List (DataVector V)) := do
  let v ← point.foldlM (addPoint (x * y)) fun _ => []
  if ∀ q ∈ positions x y, InArray (x * y) (place q.1 q.2) then
    return (positions x y).map fun q =>
      dataVector (vectorName x y name type q.1 q.2) deps (v (place q.1 q.2))
  else none

/-- Rows and columns are counted from one. -/
def Within (x y i j : ℕ) : Prop := (1 ≤ i ∧ i ≤ x) ∧ 1 ≤ j ∧ j ≤ y

theorem mem_positions {x y : ℕ} {q : ℕ × ℕ} : q ∈ positions x y ↔ Within x y q.1 q.2 := by
  simp only [positions, mem_flatMap, mem_map, mem_range'_1, Within]
  constructor
  · rintro ⟨i, hi, j, hj, rfl⟩
    dsimp only
    omega
  · exact fun h => ⟨q.1, by omega, q.2, by omega, rfl⟩

theorem addPoints {size : ℕ} (v : ℤ → List V) {point : List (Point V)}
    (h : ∀ p ∈ point, InArray size (place p.x p.y)) : point.foldlM (addPoint size) v =
      some fun n => v n ++ (point.filter fun p => place p.x p.y = n).map (·.value) := by
  induction point generalizing v with
  | nil => simp
  | cons p point ih =>
    rw [foldlM_cons, addPoint, if_pos (h p mem_cons_self)]
    refine (ih _ fun q hq => h q (mem_cons_of_mem p hq)).trans (congrArg some (funext fun n => ?_))
    by_cases hn : place p.x p.y = n
    · subst hn
      simp
    · simp [Function.update_of_ne (Ne.symm hn), hn]

/-- The vectors of the positions, each with the values of its points. -/
def split (point : List (Point V)) (x y : ℕ) (name type : Text) (deps : List Text) :
    List (DataVector V) :=
  (positions x y).map fun q => dataVector (vectorName x y name type q.1 q.2) deps
    ((point.filter fun p => p.x = q.1 ∧ p.y = q.2).map (·.value))

/-- No place is beyond the array, unless there is one row with several columns. -/
theorem inArray_place {x y : ℕ} (hx : x = 1 → y ≤ 1) {i j : ℕ} (h : Within x y i j) :
    InArray (x * y) (place i j) := by
  obtain ⟨hi, hj⟩ := h
  refine ⟨by simp only [place]; omega, ?_⟩
  rcases (by omega : x = 1 ∨ 2 ≤ x) with rfl | hx2
  · simp only [place]
    omega
  · have hprod : (0 : ℤ) ≤ ((x : ℤ) - 2) * ((y : ℤ) - 1) := by
      apply mul_nonneg <;> omega
    simp only [place]
    push_cast
    nlinarith

/-- A position whose place no other one has. -/
def Alone (x y i j : ℕ) : Prop := (i ≤ 2 ∨ j = y) ∧ (x < i + 2 ∨ j = 1)

theorem alone_iff {x y i j : ℕ} (h : Within x y i j) :
    Alone x y i j ↔ ∀ i' j', Within x y i' j' → place i j = place i' j' → i = i' ∧ j = j' := by
  simp only [Within, Alone, place] at h ⊢
  constructor
  · intro halone i' j' h' heq
    omega
  · intro hall
    constructor
    · by_contra hother
      have := hall (i - 2) (j + 1) (by omega) (by omega)
      omega
    · by_contra hother
      have := hall (i + 2) (j - 1) (by omega) (by omega)
      omega

theorem createVardataset_eq_split_iff (point : List (Point V)) {x y : ℕ}
    (hpoint : ∀ p ∈ point, Within x y p.x p.y) (name type : Text) (deps : List Text) :
    createVardataset point x y name type deps = some (split point x y name type deps) ↔
      (x = 1 → y ≤ 1) ∧ ∀ p ∈ point, Alone x y p.x p.y := by
  by_cases hx : x = 1 → y ≤ 1
  · have hrange : ∀ q ∈ positions x y, InArray (x * y) (place q.1 q.2) := fun q hq =>
      inArray_place hx (mem_positions.mp hq)
    have hcreated : createVardataset point x y name type deps =
        some ((positions x y).map fun q => dataVector (vectorName x y name type q.1 q.2) deps
          ((point.filter fun p => place p.x p.y = place q.1 q.2).map (·.value))) := by
      rw [createVardataset, addPoints _ fun p hp => inArray_place hx (hpoint p hp)]
      exact if_pos hrange
    rw [hcreated, Option.some_inj, split, map_inj_left, and_iff_right hx]
    constructor
    · intro heq p hp
      refine (alone_iff (hpoint p hp)).mpr fun i j hij hplace => ?_
      have hlength := congrArg (·.values.length) (heq (i, j) (mem_positions.mpr hij))
      simp only [dataVector, length_map] at hlength
      have hsub : (point.filter fun p => p.x = i ∧ p.y = j).Sublist
          (point.filter fun p => place p.x p.y = place i j) :=
        monotone_filter_right point fun q hq => by
          rw [decide_eq_true_eq] at hq ⊢
          rw [hq.1, hq.2]
      have hmem : p ∈ point.filter fun p => place p.x p.y = place i j :=
        mem_filter.mpr ⟨hp, decide_eq_true hplace⟩
      rw [← hsub.eq_of_length hlength.symm, mem_filter, decide_eq_true_eq] at hmem
      exact hmem.2
    · intro halone q hq
      refine congrArg (dataVector _ deps) (congrArg (map _) (filter_congr fun p hp => ?_))
      rw [decide_eq_decide]
      refine ⟨(alone_iff (hpoint p hp)).mp (halone p hp) q.1 q.2 (mem_positions.mp hq), ?_⟩
      rintro ⟨hi, hj⟩
      rw [hi, hj]
  · obtain ⟨rfl, hy⟩ : x = 1 ∧ 1 < y := by omega
    refine iff_of_false (fun h => ?_) fun h => hx h.1
    obtain ⟨v, -, hv⟩ := Option.bind_eq_some_iff.mp h
    split_ifs at hv with hrange
    have hlast := hrange (1, y) (mem_positions.mpr ⟨⟨le_rfl, le_rfl⟩, by omega⟩)
    simp only [InArray, place] at hlast
    omega

/-- **Matrix data are split by position** iff every place is in the array and every
point is alone in its place; for all points of a matrix iff it has no row, two rows, or
at most one column. -/
theorem createVardataset_split_iff [Inhabited V] (x y : ℕ) (name type : Text) (deps : List Text) :
    (∀ point : List (Point V), (∀ p ∈ point, Within x y p.x p.y) →
      (createVardataset point x y name type deps = some (split point x y name type deps) ↔
        (x = 1 → y ≤ 1) ∧ ∀ p ∈ point, Alone x y p.x p.y)) ∧
    ((∀ point : List (Point V), (∀ p ∈ point, Within x y p.x p.y) →
      createVardataset point x y name type deps = some (split point x y name type deps)) ↔
        x = 0 ∨ x = 2 ∨ y ≤ 1) := by
  refine ⟨fun point hpoint => createVardataset_eq_split_iff point hpoint name type deps, ?_⟩
  constructor
  · intro hall
    by_contra hdim
    have hpoint : ∀ p ∈ [(⟨1, 2, default⟩ : Point V)], Within x y p.x p.y := by
      simp only [mem_singleton, forall_eq, Within]
      omega
    obtain ⟨hone, halone⟩ := (createVardataset_eq_split_iff _ hpoint name type deps).mp
      (hall _ hpoint)
    have := halone _ mem_cons_self
    simp only [Alone] at this
    omega
  · intro hdim point hpoint
    refine (createVardataset_eq_split_iff point hpoint name type deps).mpr
      ⟨by omega, fun p hp => ?_⟩
    have := hpoint p hp
    simp only [Within, Alone] at this ⊢
    omega

theorem createVardataset_twoByTwo :
    createVardataset [⟨2, 1, 'a'⟩, ⟨1, 2, 'b'⟩] 2 2 ['S'] "MEAS".toList [] =
      some [⟨"S.M[1,1]".toList, [], none⟩, ⟨"S.M[1,2]".toList, ['b'], none⟩,
        ⟨"S.M[2,1]".toList, ['a'], none⟩, ⟨"S.M[2,2]".toList, [], none⟩] := by
  rw [(createVardataset_split_iff 2 2 _ _ _).2.mpr (.inr (.inl rfl)) _ (by simp [Within])]
  decide

end Points

/-- In a matrix of dimension 3, 2 the points at `[3,1]` and at `[1,2]` end up in one vector,
which has both names in turn. -/
theorem createVardataset_threeByTwo :
    (createVardataset [⟨3, 1, 'a'⟩, ⟨1, 2, 'b'⟩] 3 2 ['S'] "MEAS".toList []).map
      (·.filter (·.name = "S.M[3,1]".toList)) =
        some [⟨"S.M[3,1]".toList, ['a', 'b'], some []⟩] := by
  decide

end Qucs.Convert.Mdl
