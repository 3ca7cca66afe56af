/-
# Consecutive ranges

A list of lengths divides an initial segment of the natural numbers into
consecutive ranges: the range of position `k` starts where the lengths before
it end (`start`). Every number below the total is in exactly one of them
(`exists_range`, `range_unique`).
-/
import Mathlib

namespace Lib.Ranges

open List

variable (lengths : List Nat)

/-- Where the range of position `k` starts. -/
def start (k : Nat) : Nat := (lengths.take k).sum

theorem start_succ {k : Nat} (hk : k < lengths.length) :
    start lengths (k + 1) = start lengths k + lengths[k] := by
  rw [start, start, take_succ_eq_append_getElem hk, sum_append, sum_singleton]

theorem start_cons_succ (n : Nat) (lengths : List Nat) (k : Nat) :
    start (n :: lengths) (k + 1) = n + start lengths k := by
  rfl

theorem start_mono {k j : Nat} (hkj : k ≤ j) :
    start lengths k ≤ start lengths j :=
  take_prefix_take_left hkj |>.sublist.sum_le_sum fun _ _ => Nat.zero_le _

theorem exists_range {lengths : List Nat} {i : Nat} (hi : i < lengths.sum) :
    ∃ (k : Nat) (hk : k < lengths.length),
      start lengths k ≤ i ∧ i < start lengths k + lengths[k] := by
  induction lengths generalizing i with
  | nil => exact absurd hi (by simp)
  | cons n lengths ih =>
    by_cases hin : i < n
    · exact ⟨0, by simp, by simp [start], by simpa [start] using hin⟩
    · rw [sum_cons] at hi
      obtain ⟨k, hk, hlo, hhi⟩ := ih (i := i - n) (by omega)
      refine ⟨k + 1, by simpa using hk, ?_, ?_⟩
      · rw [start_cons_succ]
        omega
      · rw [start_cons_succ, getElem_cons_succ]
        omega

theorem range_unique {i k j : Nat} (hk : k < lengths.length)
    (hj : j < lengths.length) (hik : start lengths k ≤ i ∧ i < start lengths k + lengths[k])
    (hij : start lengths j ≤ i ∧ i < start lengths j + lengths[j]) : k = j := by
  rcases Nat.lt_trichotomy k j with h | h | h
  · have hle := start_mono lengths (Nat.succ_le_of_lt h)
    rw [Nat.succ_eq_add_one, start_succ lengths hk] at hle
    omega
  · exact h
  · have hle := start_mono lengths (Nat.succ_le_of_lt h)
    rw [Nat.succ_eq_add_one, start_succ lengths hj] at hle
    omega

end Lib.Ranges
