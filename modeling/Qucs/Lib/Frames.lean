/-
# Linear relations and the matrices that describe them

A frame splits the quantities of a space into inputs and outputs, as many of either,
such that all inputs and outputs belong to exactly one point. In a frame a matrix
describes the points whose outputs are what it makes of their inputs (`Frame.graph`).

One set of points can be described in several frames. In each of them the matrix is
determined by the set (`graph_injective`); and two sets are equal if one is part of
the other (`graph_eq_of_subset`). So a conversion between matrices is right if it
loses no point and is defined wherever there is something to find (`converts_iff`).
-/
import Qucs.Lib.Numerals

namespace Lib.Frames

open Matrix

variable {K ι X : Type*} [Field K] [Fintype ι] [AddCommGroup X] [Module K X]

structure Frame (K ι X : Type*) [Field K] [AddCommGroup X] [Module K X] where
  input : X →ₗ[K] ι → K
  output : X →ₗ[K] ι → K
  point : ∀ a b, ∃ x, input x = a ∧ output x = b
  zero : ∀ x, input x = 0 → output x = 0 → x = 0

namespace Frame

variable (φ ψ : Frame K ι X) {M N : Matrix ι ι K}

def graph (M : Matrix ι ι K) : Set X := {x | φ.output x = M *ᵥ φ.input x}

variable {φ} in
theorem mem_graph {x : X} : x ∈ φ.graph M ↔ φ.output x = M *ᵥ φ.input x := Iff.rfl

omit [Fintype ι] in
theorem eq_of_parts {x y : X} (hin : φ.input x = φ.input y) (hout : φ.output x = φ.output y) :
    x = y := by
  refine sub_eq_zero.mp (φ.zero _ ?_ ?_)
  · rw [map_sub, hin, sub_self]
  · rw [map_sub, hout, sub_self]

/-- Inputs and outputs together are coordinates. -/
noncomputable def coordinates : X ≃ₗ[K] (ι → K) × (ι → K) :=
  LinearEquiv.ofBijective (φ.input.prod φ.output)
    ⟨fun _ _ h => φ.eq_of_parts (congrArg Prod.fst h) (congrArg Prod.snd h), fun ⟨a, b⟩ =>
      let ⟨x, hin, hout⟩ := φ.point a b
      ⟨x, Prod.ext hin hout⟩⟩

omit [Fintype ι] in
theorem coordinates_apply (x : X) : φ.coordinates x = (φ.input x, φ.output x) := rfl

theorem exists_mem_graph (M : Matrix ι ι K) (a : ι → K) : ∃ x ∈ φ.graph M, φ.input x = a := by
  obtain ⟨x, hin, hout⟩ := φ.point a (M *ᵥ a)
  refine ⟨x, ?_, hin⟩
  rw [mem_graph, hin, hout]

theorem eq_zero_of_mem_graph {x : X} (hx : x ∈ φ.graph M) (hin : φ.input x = 0) : x = 0 := by
  refine φ.zero x hin ?_
  rw [mem_graph.mp hx, hin, mulVec_zero]

theorem graph_injective (h : φ.graph M = φ.graph N) : M = N := by
  classical
  refine ext_of_mulVec_single fun i => ?_
  obtain ⟨x, hx, hin⟩ := φ.exists_mem_graph M (Pi.single i 1)
  have hN : φ.output x = N *ᵥ φ.input x := by
    rw [h] at hx
    exact hx
  rw [← hin, ← mem_graph.mp hx, hN]

variable {φ ψ}

/-- Both sets have as many dimensions as there are inputs. -/
theorem graph_eq_of_subset (h : φ.graph M ⊆ ψ.graph N) : φ.graph M = ψ.graph N := by
  let f : (ι → K) →ₗ[K] ι → K := ψ.input ∘ₗ φ.coordinates.symm.toLinearMap ∘ₗ
    (LinearMap.id.prod M.mulVecLin)
  have hmem : ∀ a, φ.coordinates.symm (a, M *ᵥ a) ∈ φ.graph M ∧
      φ.input (φ.coordinates.symm (a, M *ᵥ a)) = a := by
    intro a
    have hcoord := φ.coordinates.apply_symm_apply (a, M *ᵥ a)
    rw [coordinates_apply, Prod.mk.injEq] at hcoord
    refine ⟨?_, hcoord.1⟩
    rw [mem_graph, hcoord.1, hcoord.2]
  have hinj : Function.Injective f := by
    rw [injective_iff_map_eq_zero]
    intro a ha
    have hzero := ψ.eq_zero_of_mem_graph (h (hmem a).1) ha
    rw [← (hmem a).2, hzero, map_zero]
  refine h.antisymm fun y hy => ?_
  obtain ⟨a, ha⟩ := LinearMap.surjective_of_injective hinj (ψ.input y)
  have hx := h (hmem a).1
  have hin : ψ.input (φ.coordinates.symm (a, M *ᵥ a)) = ψ.input y := ha
  have hsame : φ.coordinates.symm (a, M *ᵥ a) = y := by
    refine ψ.eq_of_parts hin ?_
    rw [mem_graph.mp hx, mem_graph.mp hy, hin]
  exact hsame ▸ (hmem a).1

/-- **A conversion is right** if it loses no point and is defined where it has to be. -/
theorem converts_iff {f : Matrix ι ι K → Option (Matrix ι ι K)}
    (sound : ∀ M N, f M = some N → φ.graph M ⊆ ψ.graph N)
    (total : ∀ M N, φ.graph M = ψ.graph N → ∃ N', f M = some N') :
    f M = some N ↔ φ.graph M = ψ.graph N := by
  constructor
  · intro h
    exact graph_eq_of_subset (sound M N h)
  · intro h
    obtain ⟨N', hN'⟩ := total M N h
    have hsame := (graph_eq_of_subset (sound M N' hN')).symm.trans h
    rw [hN', ψ.graph_injective hsame]

end Frame

end Lib.Frames
