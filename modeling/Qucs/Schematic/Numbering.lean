/-
# Names and numbers of inserted components

`Schematic::insertComponent` and `setComponentNumber`. A component comes with a prefix
for its name, and gets a number behind it that is larger than all numbers behind this
prefix. A port or a source has its number as the property `Num`, which is changed to
the first free one if another component of its model has it.

* Schematic::insertComponent: `insertComponent`, the number `freshNumber`
* Schematic::setComponentNumber: `setComponentNumber`, its last loop `freeNumber`
* obsolete_model_hack (): `Component.model`

`QString::toInt` is a parameter, of which is needed that it reads what `QString::number`
writes. Nodes and labels are left out. The first property of a component of the same
model is used unchecked; here a missing one is like another value.
-/
import Mathlib

namespace Qucs.Numbering

open List

abbrev Text : Type := List Char

structure Property where
  name : Text
  value : Text
  deriving DecidableEq

structure Component where
  name : Text
  model : Text
  props : List Property
  deriving DecidableEq

def number (n : ℕ) : Text := Nat.toDigits 10 n

/-- The text of the first property. -/
def Component.first (c : Component) : Option Text := c.props.head?.map (·.value)

/-- The number of a component that has one. -/
def Component.num (c : Component) : Option Text :=
  (c.props.head?.filter (·.name = "Num".toList)).map (·.value)

def used (comps : List Component) (model s : Text) : Bool :=
  comps.any fun pc => pc.model = model ∧ pc.first = some s

/-- More texts than components need not be tried. -/
def freeNumber (comps : List Component) (model : Text) : Text :=
  (((range' 1 (comps.length + 1)).map number).find? fun s => !used comps model s).getD []

/-- A number that is used gives way to a free one. -/
def setComponentNumber (comps : List Component) (c : Component) : Component :=
  match c.props with
  | [] => c
  | pp :: props =>
    if pp.name ≠ "Num".toList then c
    else if used comps c.model pp.value then
      { c with props := { pp with value := freeNumber comps c.model } :: props }
    else c

variable (toInt : Text → Option ℤ)

/-- The number behind a name with the prefix, if it is the largest so far. -/
def raise (pre : Text) (max : ℕ) (name : Text) : ℕ :=
  if name.take pre.length = pre then
    match toInt (name.drop pre.length) with
    | some z => if z ≥ max then z.toNat + 1 else max
    | none => max
  else max

/-- Greater than all numbers behind the name. -/
def freshNumber (comps : List Component) (pre : Text) : ℕ :=
  (comps.map (·.name)).foldl (raise toInt pre) 1

/-- A component is named, numbered and appended. -/
def insertComponent (comps : List Component) (c : Component) : List Component :=
  let c := if c.name = [] then c
    else { c with name := c.name ++ number (freshNumber toInt comps c.name) }
  comps ++ [setComponentNumber comps c]

/-- What calls make of the empty schematic, with prefixes for the names and with numbers
below the limit. -/
inductive Inserted : List Component → Prop
  | empty : Inserted []
  | insert {comps : List Component} {c : Component} : Inserted comps → c.name ≠ [] →
      freshNumber toInt comps c.name < 2 ^ 31 → Inserted (insertComponent toInt comps c)

variable {toInt} {comps : List Component} {c : Component} {model s : Text}

theorem used_iff : used comps model s ↔ ∃ pc ∈ comps, pc.model = model ∧ pc.first = some s := by
  simp [used]

theorem number_injective : Function.Injective number :=
  Function.LeftInverse.injective fun n => Nat.ofDigitChars_ten_toDigits (n := n)

/-- Of one text more than there are components one is free. -/
theorem freeNumber_not_used : ¬used comps model (freeNumber comps model) := by
  rw [freeNumber]
  cases hfind : ((range' 1 (comps.length + 1)).map number).find? fun s => !used comps model s with
  | some s => simpa using find?_some hfind
  | none =>
    have hall : (range' 1 (comps.length + 1)).map number ⊆
        comps.map fun pc => pc.first.getD [] := by
      intro s hs
      obtain ⟨pc, hpc, -, hfirst⟩ := used_iff.mp (by simpa using find?_eq_none.mp hfind s hs)
      exact mem_map.mpr ⟨pc, hpc, by rw [hfirst, Option.getD_some]⟩
    have hle := (subperm_of_subset ((nodup_range' ..).map number_injective) hall).length_le
    simp at hle

theorem setComponentNumber_keeps :
    (setComponentNumber comps c).name = c.name ∧ (setComponentNumber comps c).model = c.model := by
  unfold setComponentNumber
  split
  · exact ⟨rfl, rfl⟩
  · split_ifs <;> exact ⟨rfl, rfl⟩

theorem setComponentNumber_num (h : (setComponentNumber comps c).num = some s) :
    ¬used comps c.model s := by
  unfold setComponentNumber at h
  split at h
  case h_1 hprops => simp [Component.num, hprops] at h
  case h_2 pp props hprops =>
    split_ifs at h with hname hused
    · simp_all [Component.num]
    · obtain rfl : freeNumber comps c.model = s := by
        simpa [Component.num, not_not.mp hname] using h
      exact freeNumber_not_used
    · obtain rfl : pp.value = s := by simpa [Component.num, hprops, not_not.mp hname] using h
      exact hused

theorem first_of_num (h : c.num = some s) : c.first = some s := by
  obtain ⟨pp, hpp, rfl⟩ := Option.map_eq_some_iff.mp h
  rw [Component.first, (Option.filter_eq_some_iff.mp hpp).1, Option.map_some]

theorem le_raise (pre : Text) (max : ℕ) (name : Text) : max ≤ raise toInt pre max name := by
  unfold raise
  split_ifs
  · split
    · split_ifs <;> omega
    · exact le_rfl
  · exact le_rfl

theorem le_foldl_raise (pre : Text) (names : List Text) (max : ℕ) :
    max ≤ names.foldl (raise toInt pre) max := by
  induction names generalizing max with
  | nil => exact le_rfl
  | cons name names ih => exact (le_raise pre max name).trans (ih _)

theorem lt_foldl_raise {pre rest : Text} {names : List Text} {n max : ℕ}
    (hmem : pre ++ rest ∈ names) (hread : toInt rest = some (n : ℤ)) :
    n < names.foldl (raise toInt pre) max := by
  induction names generalizing max with
  | nil => cases hmem
  | cons name names ih =>
    rcases mem_cons.mp hmem with rfl | hmem
    · refine lt_of_lt_of_le ?_ (le_foldl_raise pre names _)
      simp only [raise, take_left, drop_left, hread]
      split_ifs <;> omega
    · exact ih hmem

/-- **Names and numbers stay different.** -/
theorem inserted_distinct (hread : ∀ n < 2 ^ 31, toInt (number n) = some (n : ℤ))
    (h : Inserted toInt comps) : (comps.map (·.name)).Nodup ∧
      comps.Pairwise fun a b => a.model = b.model → ∀ s, a.num = some s → b.num ≠ some s := by
  induction h with
  | empty => simp
  | @insert comps c _ hname hlimit ih =>
    obtain ⟨hnames, hnums⟩ := ih
    rw [insertComponent, if_neg hname]
    constructor
    · rw [map_append, map_singleton, setComponentNumber_keeps.1, ← concat_eq_append, nodup_concat]
      exact ⟨fun hmem => (lt_foldl_raise hmem (hread _ hlimit)).false, hnames⟩
    · refine pairwise_append.mpr ⟨hnums, pairwise_singleton .., fun a ha b hb => ?_⟩
      rw [mem_singleton.mp hb, setComponentNumber_keeps.2]
      intro hmodel s ha' hb'
      exact setComponentNumber_num hb' (used_iff.mpr ⟨a, ha, hmodel, first_of_num ha'⟩)

/-- A number is what is written as one. -/
def readNumber (s : Text) : Option ℤ :=
  if number (Nat.ofDigitChars 10 s 0) = s then some (Nat.ofDigitChars 10 s 0) else none

theorem inserted_distinct_sources :
    let source : Component := ⟨['P'], "Pac".toList, [⟨"Num".toList, ['1']⟩]⟩
    let comps := insertComponent readNumber (insertComponent readNumber [] source) source
    (comps.map (·.name)).Nodup ∧
      comps.Pairwise fun a b => a.model = b.model → ∀ s, a.num = some s → b.num ≠ some s :=
  have hread : ∀ n < 2 ^ 31, readNumber (number n) = some (n : ℤ) := by
    simp [readNumber, number, Nat.ofDigitChars_ten_toDigits]
  inserted_distinct hread (.insert (.insert .empty (by decide) (by decide)) (by decide) (by decide))

end Qucs.Numbering
