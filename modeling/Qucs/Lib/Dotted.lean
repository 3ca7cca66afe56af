/-
# Dotted names

Identifiers without dots, joined by dots, can be read back: the joined text
determines the list (`dotted_injective`). Of identifiers that have dots of
their own it determines the pieces between the dots, and no more
(`dotted_eq_iff`).
-/
import Mathlib.Data.List.Basic
import Mathlib.Data.List.Induction

namespace Lib.Dotted

open List

def NoDot (s : String) : Prop := '.' ∉ s.toList

instance : DecidablePred NoDot := fun s => inferInstanceAs (Decidable ('.' ∉ s.toList))

/-- The characters of the dotted text of a list of identifiers. -/
def dotted (l : List String) : List Char := ['.'].intercalate (l.map String.toList)

theorem dotted_cons (a b : String) (l : List String) :
    dotted (a :: b :: l) = a.toList ++ '.' :: dotted (b :: l) := by
  simp [dotted, intercalate]

theorem dotted_append (l : List String) (b : String) (m : List String) (hl : l ≠ []) :
    dotted (l ++ b :: m) = dotted l ++ '.' :: dotted (b :: m) := by
  induction l with
  | nil => exact absurd rfl hl
  | cons a l ih =>
    cases l with
    | nil => simp [dotted, intercalate]
    | cons a' l =>
      rw [cons_append, cons_append, dotted_cons, ← cons_append, ih (by simp),
        dotted_cons, append_assoc, cons_append]

/-- The pieces between the dots of a list of identifiers. -/
def pieces (l : List String) : List (List Char) := l.flatMap fun s => s.toList.splitOn '.'

theorem splitOn_dotted {l : List String} (hl : l ≠ []) : (dotted l).splitOn '.' = pieces l := by
  induction l with
  | nil => exact absurd rfl hl
  | cons a l ih =>
    cases l with
    | nil => simp [dotted, pieces, intercalate]
    | cons b l =>
      rw [dotted_cons, splitOn_append_cons_self, ih (by simp)]
      rfl

theorem dotted_eq_iff {l m : List String} (hl : l ≠ []) (hm : m ≠ []) :
    dotted l = dotted m ↔ pieces l = pieces m := by
  rw [← splitOn_dotted hl, ← splitOn_dotted hm]
  refine ⟨congrArg _, fun e => ?_⟩
  have joined := congrArg (['.'].intercalate ·) e
  simpa only [intercalate_splitOn] using joined

theorem pieces_of_noDot {l : List String} (hl : ∀ s ∈ l, NoDot s) :
    pieces l = l.map String.toList := by
  induction l with
  | nil => rfl
  | cons a l ih =>
    have whole := splitOn_eq_singleton (hl a mem_cons_self)
    have rest := ih fun s hs => hl s (mem_cons_of_mem _ hs)
    simp only [pieces, flatMap_cons, map_cons] at rest ⊢
    rw [whole, rest]
    rfl

theorem dotted_injective {l m : List String} (hl : ∀ s ∈ l, NoDot s) (hm : ∀ s ∈ m, NoDot s)
    (hl0 : l ≠ []) (hm0 : m ≠ []) (e : dotted l = dotted m) : l = m := by
  have parts := (dotted_eq_iff hl0 hm0).mp e
  rw [pieces_of_noDot hl, pieces_of_noDot hm] at parts
  exact map_injective_iff.mpr (fun _ _ => String.toList_injective) parts

theorem toList_foldl_dot (is : List String) : ∀ i,
    (is.foldl (fun txt s => txt ++ "." ++ s) i).toList = dotted (i :: is) := by
  induction is using reverseRecOn with
  | nil =>
    intro i
    simp [dotted, intercalate]
  | append_singleton is s ih =>
    intro i
    rw [foldl_append, foldl_cons, foldl_nil, ← cons_append, dotted_append _ _ _ (by simp)]
    simp [ih i, dotted, intercalate]

end Lib.Dotted
