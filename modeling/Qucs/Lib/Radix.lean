/-
# Positions in blocks of blocks

A list that a nest of loops fills has its values at mixed-radix positions: with
the fastest loop first,

    position [n₁, n₂, n₃] [i₁, i₂, i₃]  =  i₁ + n₁ * (i₂ + n₂ * i₃)

One more loop around the nest is one more size at the end (`position_append`),
and one more level of equal blocks (`getElem?_flatMap_block`).
-/
import Mathlib.Algebra.BigOperators.Group.List.Basic

namespace Lib.Radix

open List

def position : List ℕ → List ℕ → ℕ
  | n :: sizes, i :: is => i + n * position sizes is
  | _, _ => 0

def Within (sizes is : List ℕ) : Prop := List.Forall₂ (· < ·) is sizes

theorem position_append : ∀ {sizes is : List ℕ}, sizes.length = is.length → ∀ n i,
    position (sizes ++ [n]) (is ++ [i]) = position sizes is + sizes.prod * i
  | [], [], _, n, i => by simp [position]
  | m :: sizes, j :: is, h, n, i => by
    have ih := position_append (Nat.succ.inj h) n i
    simp only [cons_append, position, ih, prod_cons, Nat.mul_add, Nat.mul_assoc, Nat.add_assoc]

theorem position_lt {sizes is : List ℕ} (h : Within sizes is) : position sizes is < sizes.prod := by
  induction h with
  | nil => simp [position]
  | @cons i n is sizes hi _ ih =>
    calc i + n * position sizes is < n + n * position sizes is := by omega
      _ = n * (position sizes is + 1) := by rw [Nat.mul_add, Nat.mul_one, Nat.add_comm]
      _ ≤ n * sizes.prod := Nat.mul_le_mul_left n ih

theorem Within.split : ∀ {sizes is : List ℕ} {n : ℕ}, Within (sizes ++ [n]) is →
    ∃ js i, is = js ++ [i] ∧ Within sizes js ∧ i < n
  | [], _, n, .cons hi .nil => ⟨[], _, rfl, .nil, hi⟩
  | _ :: _, _, n, .cons hj h => by
    obtain ⟨js, i, rfl, hjs, hi⟩ := Within.split h
    exact ⟨_ :: js, i, rfl, .cons hj hjs, hi⟩

variable {α β : Type*}

theorem getElem?_flatMap_block {f : α → List β} {k : ℕ} : ∀ {l : List α},
    (∀ a ∈ l, (f a).length = k) → ∀ {i j : ℕ}, j < k →
      (l.flatMap f)[j + k * i]? = l[i]?.bind fun a => (f a)[j]?
  | [], _, i, j, _ => by simp
  | a :: l, h, 0, j, hj => by
    have ha := h a mem_cons_self
    rw [flatMap_cons, Nat.mul_zero, Nat.add_zero, getElem?_append_left (by rw [ha]; exact hj)]
    rfl
  | a :: l, h, i + 1, j, hj => by
    have ha := h a mem_cons_self
    have ih := getElem?_flatMap_block (fun b hb => h b (mem_cons_of_mem a hb)) (i := i) hj
    have hle : (f a).length ≤ j + k * (i + 1) := by
      rw [ha, Nat.mul_add, Nat.mul_one]
      omega
    rw [flatMap_cons, getElem?_append_right hle, ha, getElem?_cons_succ, ← ih,
      Nat.mul_add, Nat.mul_one, ← Nat.add_assoc, Nat.add_sub_cancel]

theorem length_flatMap_block {f : α → List β} {k : ℕ} {l : List α}
    (h : ∀ a ∈ l, (f a).length = k) : (l.flatMap f).length = k * l.length := by
  rw [length_flatMap, map_congr_left h, map_const', sum_replicate_nat, Nat.mul_comm]

end Lib.Radix
