/-
# The reference port of an S-parameter file

`components/spfile.cpp`. The data of a file describe a network whose
ports share the ground. `expandSParaMatrix` gives them a port of its own for it, the
last one, and `shrinkSParaMatrix` removes a last port with the reflection `g` of ground.
-/
import Qucs.Lib.Numerals

namespace Qucs.Convert

open Finset
open Fin (lastCases last)

section SpFile

variable {K : Type*} [Field K] {n : ℕ} (s : Matrix (Fin n) (Fin n) K)

/-- The reflection of ground. -/
def ground : K := -1

/-- The sum of all elements. -/
def sa : K := ∑ r, ∑ c, s r c

/-- What the reflection at the new port is divided by. -/
def denominator : K := 1 - (n + 1) * ground - sa s

/-- `S'mm`. -/
def corner : K := (2 - ground - (n + 1) + sa s) / denominator s

/-- The `fr` of both functions. -/
def factor : K := (1 - ground * corner s) / (1 - ground)

/-- `S'im`. -/
def newColumn (r : Fin n) : K := factor s * (1 - ∑ c, s r c)

/-- `S'mj`. -/
def newRow (c : Fin n) : K := factor s * (1 - ∑ r, s r c)

def expandSParaMatrix : Matrix (Fin (n + 1)) (Fin (n + 1)) K :=
  lastCases (lastCases (corner s) (newRow s)) fun r =>
    lastCases (newColumn s r) fun c =>
      s r c - ground * newColumn s r * newRow s c / (1 - ground * corner s)

def shrinkSParaMatrix (s : Matrix (Fin (n + 1)) (Fin (n + 1)) K) : Matrix (Fin n) (Fin n) K :=
  fun r c => s r.castSucc c.castSucc +
    ground * s r.castSucc (last n) * s (last n) c.castSucc / (1 - ground * s (last n) (last n))

/-- What shrinking adds is what expanding takes away. -/
theorem shrink_expand : shrinkSParaMatrix (expandSParaMatrix s) = s := by
  funext r c
  simp only [shrinkSParaMatrix, expandSParaMatrix, Fin.lastCases_last, Fin.lastCases_castSucc,
    sub_add_cancel]

theorem denominator_eq : denominator s = n + 2 - sa s := by
  rw [denominator, ground]
  ring

theorem sa_transpose : sa s.transpose = sa s := sum_comm

theorem denominator_transpose : denominator s.transpose = denominator s := by
  rw [denominator, sa_transpose, denominator]

theorem expand_transpose : expandSParaMatrix s.transpose = (expandSParaMatrix s).transpose := by
  have hcorner : corner s.transpose = corner s := by
    rw [corner, denominator_transpose, sa_transpose, corner]
  funext r c
  cases r using lastCases <;> cases c using lastCases <;>
    simp [expandSParaMatrix, newRow, newColumn, factor, hcorner, mul_right_comm]

variable {s} (h : denominator s ≠ 0)
include h

theorem one_sub_corner : 1 - ground * corner s = 4 / denominator s := by
  rw [corner, ground, eq_div_iff h, sub_mul, mul_assoc, div_mul_cancel₀ _ h, denominator_eq]
  ring

theorem sum_row [CharZero K] (r : Fin (n + 1)) : ∑ c, expandSParaMatrix s r c = 1 := by
  have hcorner := one_sub_corner h
  have hfactor : factor s = 2 / denominator s := by
    rw [factor, hcorner, ground]
    field_simp
    norm_num
  have hrow : ∑ c, newRow s c = 2 / denominator s * (denominator s - 2) := by
    have hsum : ∑ c, ∑ r, s r c = sa s := sum_comm
    simp only [newRow, ← mul_sum, sum_sub_distrib, sum_const, card_univ, Fintype.card_fin,
      nsmul_one, hsum, hfactor, denominator_eq s]
    ring
  rw [Fin.sum_univ_castSucc]
  cases r using lastCases with
  | last =>
    simp only [expandSParaMatrix, Fin.lastCases_last, Fin.lastCases_castSucc, hrow]
    have hsolved : corner s = 4 / denominator s - 1 := by
      rw [← hcorner, ground]
      ring
    rw [hsolved]
    field_simp
    ring
  | cast r =>
    simp only [expandSParaMatrix, Fin.lastCases_last, Fin.lastCases_castSucc, sum_sub_distrib,
      ← sum_div, ← mul_sum, hrow, hcorner, newColumn, hfactor]
    rw [ground]
    field_simp
    ring

end SpFile

/-- **With its reference port** a network has waves that sum up in every row and every
column, and without it the network is the one of the file again. -/
theorem expand_roundTrip (n : ℕ) (s : Matrix (Fin n) (Fin n) ℂ) (h : denominator s ≠ 0) :
    (∀ r, ∑ c, expandSParaMatrix s r c = 1) ∧ (∀ c, ∑ r, expandSParaMatrix s r c = 1) ∧
      shrinkSParaMatrix (expandSParaMatrix s) = s := by
  refine ⟨sum_row h, fun c => ?_, shrink_expand s⟩
  have htranspose : denominator s.transpose ≠ 0 := by rwa [denominator_transpose]
  simpa [expand_transpose] using sum_row htranspose c

/-- Two ports that reflect nothing and pass on one half. -/
noncomputable def attenuator : Matrix (Fin 2) (Fin 2) ℂ := !![0, 1 / 2; 1 / 2, 0]

theorem expand_roundTrip_attenuator : (∀ r, ∑ c, expandSParaMatrix attenuator r c = 1) ∧
    (∀ c, ∑ r, expandSParaMatrix attenuator r c = 1) ∧
      shrinkSParaMatrix (expandSParaMatrix attenuator) = attenuator :=
  expand_roundTrip 2 attenuator (by norm_num [denominator, ground, sa, attenuator])

end Qucs.Convert
