/-
# Undo stacks

A stack of entries with an index into it, and what it is for: a present with the
entries before and after it (`Timeline`). Every timeline is a stack with a valid
index (`toStack`), and the operations on stacks, done on such a one, are
operations on timelines, so that its index is never outside.
-/
import Mathlib.Data.List.Basic
import Mathlib.Tactic.Ring

namespace Lib.Timeline

open List

variable {α : Type*}

structure Stack (α : Type*) where
  entries : List α
  idx : ℤ

namespace Stack

variable (s : Stack α)

def current : Option α := if 0 ≤ s.idx then s.entries[s.idx.toNat]? else none

/-- `while (size > idx + 1) pop_back`. -/
def truncate : Stack α :=
  { s with entries := s.entries.take (s.idx + 1).toNat }

def append (e : α) : Stack α := ⟨s.entries ++ [e], s.idx + 1⟩

/-- The last entry goes, and the index with it. -/
def popBack : Stack α := ⟨s.entries.dropLast, s.idx - 1⟩

/-- `while (size > n) { pop_front; idx-- }`. -/
def limit (n : ℕ) (s : Stack α) : Stack α :=
  ⟨s.entries.drop (s.entries.length - n), s.idx - (s.entries.length - n : ℕ)⟩

def back : Stack α := { s with idx := s.idx - 1 }

def forward : Stack α := { s with idx := s.idx + 1 }

def atStart : Bool := s.idx = 0

def atEnd : Bool := s.idx = s.entries.length - 1

/-- One change to the entry at the index, another one to all the others. -/
def mapCurrent (f g : α → α) (s : Stack α) : Stack α :=
  { s with entries := (s.entries.map g).modify s.idx.toNat f }

end Stack

end Lib.Timeline

/-- The entries before a present, the present, and those after it. -/
structure Lib.Timeline (α : Type*) where
  past : List α
  present : α
  future : List α

namespace Lib.Timeline

variable {α : Type*} (t : Timeline α) (e : α)

def toList : List α := t.past ++ t.present :: t.future

def toStack : Stack α := ⟨t.toList, t.past.length⟩

theorem present_mem : t.present ∈ t.toList := List.mem_append_right _ List.mem_cons_self

theorem length_toList : t.toList.length = t.past.length + 1 + t.future.length := by
  rw [toList, List.length_append, List.length_cons]
  ring

/-- **The index is within the stack.** -/
theorem toStack_idx :
    0 ≤ t.toStack.idx ∧ t.toStack.idx < t.toStack.entries.length := by
  have := t.length_toList
  simp only [toStack]
  omega

@[simp]
theorem current_toStack : t.toStack.current = some t.present := by
  rw [Stack.current, if_pos t.toStack_idx.1]
  simp [toStack, toList]

theorem truncate_toStack :
    t.toStack.truncate = ({ t with future := [] } : Timeline α).toStack := by
  have hlength : ((t.past.length : ℤ) + 1).toNat = (t.past ++ [t.present]).length := by simp
  have htake : t.toList.take (t.past ++ [t.present]).length = t.past ++ [t.present] := by
    have hlist : t.toList = (t.past ++ [t.present]) ++ t.future := List.append_cons _ _ _
    rw [hlist, List.take_left]
  rw [Stack.truncate]
  simp only [toStack]
  rw [hlength, htake]
  rfl

/-- A new present; the entries after the old one are gone. -/
def push : Timeline α := ⟨t.past ++ [t.present], e, []⟩

def replace : Timeline α := ⟨t.past, e, []⟩

theorem append_toStack :
    t.toStack.truncate.append e = (t.push e).toStack := by
  rw [truncate_toStack]
  simp [Stack.append, push, toStack, toList]

theorem popBack_toStack :
    t.toStack.truncate.popBack.append e = (t.replace e).toStack := by
  rw [truncate_toStack]
  simp [Stack.append, Stack.popBack, replace, toStack, toList]

def forget (n : ℕ) (t : Timeline α) : Timeline α :=
  { t with past := t.past.drop (t.past.length + 1 - n) }

theorem limit_toStack {n : ℕ} (hn : 1 ≤ n) {t : Timeline α} (ht : t.future = []) :
    t.toStack.limit n = (t.forget n).toStack := by
  have hlength : t.toList.length = t.past.length + 1 := by rw [t.length_toList, ht]; rfl
  have hle : t.past.length + 1 - n ≤ t.past.length := by omega
  simp only [Stack.limit, toStack, forget, hlength, List.length_drop]
  congr 1
  · rw [toList, List.drop_append_of_le_length hle]
    rfl
  · omega

theorem push_future : (t.push e).future = [] := rfl

theorem replace_future : (t.replace e).future = [] := rfl

theorem forget_sublist (n : ℕ) (t : Timeline α) : (t.forget n).toList.Sublist t.toList :=
  (List.drop_sublist _ _).append_right _

theorem push_sublist : (t.push e).toList.Sublist (t.toList ++ [e]) := by
  simp only [push, toList, List.append_assoc, List.cons_append, List.nil_append]
  refine (List.Sublist.refl _).append (List.Sublist.cons_cons _ ?_)
  exact List.sublist_append_right _ _

theorem replace_sublist :
    (t.replace e).toList.Sublist (t.toList ++ [e]) := by
  simp only [replace, toList, List.append_assoc, List.cons_append]
  refine (List.Sublist.refl _).append (List.Sublist.cons _ ?_)
  exact List.sublist_append_right _ _

/-! ## Going back and forward -/

theorem exists_back {t : Timeline α} (h : t.toStack.atStart = false) :
    ∃ t' : Timeline α, t.toStack.back = t'.toStack ∧ t'.toList = t.toList ∧
      t'.toStack.forward = t.toStack ∧ t'.toStack.atEnd = false := by
  obtain ⟨past, present, future⟩ := t
  have hne : past ≠ [] := by
    rintro rfl
    simp [Stack.atStart, toStack] at h
  obtain ⟨before, last, rfl⟩ := List.eq_nil_or_concat' past |>.resolve_left hne
  refine ⟨⟨before, last, present :: future⟩, ?_, ?_, ?_, ?_⟩
  · simp [Stack.back, toStack, toList]
  · simp [toList]
  · simp [Stack.forward, toStack, toList]
  · simp [Stack.atEnd, toStack, toList]
    omega

theorem exists_forward {t : Timeline α} (h : t.toStack.atEnd = false) :
    ∃ t' : Timeline α, t.toStack.forward = t'.toStack ∧ t'.toList = t.toList ∧
      t'.toStack.back = t.toStack ∧ t'.toStack.atStart = false := by
  obtain ⟨past, present, future⟩ := t
  cases future with
  | nil => simp [Stack.atEnd, toStack, toList] at h
  | cons next future =>
    refine ⟨⟨past ++ [present], next, future⟩, ?_, ?_, ?_, ?_⟩
    · simp [Stack.forward, toStack, toList]
    · simp [toList]
    · simp [Stack.back, toStack, toList]
    · simp [Stack.atStart, toStack]
      omega

/-- The entry so many steps before the present. -/
def ago (k : ℕ) : Option α := (t.present :: t.past.reverse)[k]?

theorem ago_push {t : Timeline α} {k n : ℕ} {x : α} (h : t.ago k = some x) (hk : k + 1 < n) :
    ((t.push e).forget n).ago (k + 1) = some x := by
  have hlength : k < t.past.length + 1 := by
    obtain ⟨hlt, -⟩ := getElem?_eq_some_iff.mp h
    simpa using hlt
  rw [ago, List.getElem?_cons_succ, push, forget, List.reverse_drop, List.getElem?_take_of_lt]
  · simpa [ago] using h
  · simp
    omega

theorem exists_back_ago {t : Timeline α} {k : ℕ} {x : α} (h : t.ago (k + 1) = some x) :
    t.toStack.atStart = false ∧ ∃ t' : Timeline α, t.toStack.back = t'.toStack ∧
      t'.ago k = some x := by
  obtain ⟨past, present, future⟩ := t
  rcases List.eq_nil_or_concat' past with rfl | ⟨before, last, rfl⟩
  · simp [ago] at h
  · refine ⟨?_, ⟨before, last, present :: future⟩, ?_, ?_⟩
    · simp [Stack.atStart, toStack]
      omega
    · simp [Stack.back, toStack, toList]
    · simpa [ago] using h

/-! ## Changing the entries -/

def mapAll (f g : α → α) (t : Timeline α) : Timeline α :=
  ⟨t.past.map g, f (g t.present), t.future.map g⟩

theorem mapCurrent_toStack (f g : α → α) (t : Timeline α) :
    t.toStack.mapCurrent f g = (t.mapAll f g).toStack := by
  have hmodify : (t.past.map g ++ g t.present :: t.future.map g).modify (t.past.map g).length f =
      t.past.map g ++ f (g t.present) :: t.future.map g := by
    induction t.past with
    | nil => rfl
    | cons e past ih => simpa using ih
  simpa [Stack.mapCurrent, toStack, mapAll, toList] using hmodify

end Lib.Timeline
