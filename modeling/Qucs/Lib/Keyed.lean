/-
# A vector kept in a map

The entries of a vector are put into a map, each under a key and with a tag. A key
that is there already keeps what it has. An entry is read back if its tag is the
one under its key, and left alone otherwise. Whatever the tags, this restores every
vector iff no two entries have the same key (`readBack_stored_iff`).
-/
import Mathlib

namespace Lib.Keyed

open List

variable {κ β τ α : Type*} [DecidableEq κ]

/-- A new key; one that is there stays as it is. -/
def insert (s : κ → Option β) (k : κ) (b : β) : κ → Option β :=
  if (s k).isSome then s else Function.update s k (some b)

theorem insert_apply (s : κ → Option β) (k : κ) (b : β) (k' : κ) :
    insert s k b k' = (s k').or (if k = k' then some b else none) := by
  unfold insert
  by_cases hk : k = k'
  · subst hk
    cases hs : s k <;> simp [hs]
  · cases hs : s k <;> simp [hk, Ne.symm hk]

theorem foldl_insert {ι : Type*} (key : ι → κ) (val : ι → β) (l : List ι) (s : κ → Option β)
    (k : κ) : l.foldl (fun s i => insert s (key i) (val i)) s k =
      (s k).or ((l.find? fun i => key i = k).map val) := by
  induction l generalizing s with
  | nil => simp
  | cons i l ih =>
    rw [foldl_cons, ih, insert_apply, Option.or_assoc, find?_cons]
    by_cases hk : key i = k <;> simp [hk]

variable [DecidableEq τ]

/-- What is under a key if the tag is right. -/
def readBack (s : κ → Option (τ × α)) (k : κ) (t : τ) (old : α) : α :=
  match s k with
  | some (t', v) => if t' = t then v else old
  | none => old

variable (n : ℕ) (key : ℕ → κ) (tag : ℕ → τ)

def stored (x : ℕ → α) : κ → Option (τ × α) :=
  (List.range n).foldl (fun s i => insert s (key i) (tag i, x i)) fun _ => none

variable {n}

omit [DecidableEq τ] in
/-- Under the key of an entry is the first entry with this key. -/
theorem stored_key (x : ℕ → α) {i : ℕ} (hi : i < n) :
    ∃ j ≤ i, key j = key i ∧ stored n key tag x (key i) = some (tag j, x j) := by
  have hsome : ((range n).find? fun j => key j = key i).isSome :=
    find?_isSome.mpr ⟨i, mem_range.mpr hi, by simp⟩
  obtain ⟨j, hj⟩ := Option.isSome_iff_exists.mp hsome
  obtain ⟨hkey, -, hfirst⟩ := find?_range_eq_some.mp hj
  refine ⟨j, ?_, by simpa using hkey, ?_⟩
  · by_contra hlt
    exact absurd (hfirst i (Nat.lt_of_not_le hlt)) (by simp)
  · rw [stored, foldl_insert, hj]
    rfl

/-- **Every vector comes back iff the keys differ.** -/
theorem readBack_stored_iff [Nontrivial α] :
    (∀ x y : ℕ → α, ∀ i < n, readBack (stored n key tag x) (key i) (tag i) (y i) = x i) ↔
      ∀ i < n, ∀ j < n, key i = key j → i = j := by
  constructor
  · intro h
    have hlost : ∀ i j, i < j → j < n → key i ≠ key j := by
      intro i j hij hj hkey
      obtain ⟨a, b, hab⟩ := exists_pair_ne α
      have hback := h (fun m => if m = j then a else b) (fun _ => b) j hj
      have hnot : ∀ m ≤ i, m ≠ j := fun m hm heq => Nat.not_le_of_lt hij (heq ▸ hm)
      obtain ⟨m, hm, hkeym, hstored⟩ := stored_key key tag
        (fun m => if m = j then a else b) (Nat.lt_trans hij hj)
      rw [hkey] at hstored
      rw [readBack, hstored, if_pos rfl] at hback
      dsimp only at hback
      rw [if_neg (hnot m hm)] at hback
      split at hback <;> exact hab hback.symm
    intro i hi j hj hkey
    rcases Nat.lt_trichotomy i j with hlt | heq | hgt
    · exact absurd hkey (hlost i j hlt hj)
    · exact heq
    · exact absurd hkey.symm (hlost j i hgt hi)
  · intro hinj x y i hi
    obtain ⟨j, hj, hkey, hstored⟩ := stored_key key tag x hi
    obtain rfl := hinj j (Nat.lt_of_le_of_lt hj hi) i hi hkey
    rw [readBack, hstored]
    exact if_pos rfl

end Lib.Keyed
