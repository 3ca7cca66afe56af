/-
# Definitions evaluated one after the other

A straight-line program is a list of definitions. Running it evaluates each
definition in the store so far and writes the value under its name.

* run: the store afterwards
* ReadsOnly: the value of a definition depends on these names at most
* Ordered: every definition reads given names and names defined before it

In an ordered program nothing is left of the store it starts from, except at the
given names (`run_agree`), and at the names it does not define it changes
nothing (`run_frame`).
-/
import Mathlib.Data.Set.Insert

namespace Lib.StraightLine

open Function

variable {α ι V : Type} [DecidableEq ι] (name : α → ι) (value : α → (ι → V) → V)

/-- The store after the definitions. -/
def run : List α → (ι → V) → ι → V
  | [], s => s
  | a :: l, s => run l (Function.update s (name a) (value a s))

/-- The value of `a` depends on the names `X` at most. -/
def ReadsOnly (a : α) (X : Set ι) : Prop :=
  ∀ s t, (∀ x ∈ X, s x = t x) → value a s = value a t

/-- Every definition reads names in `X` and names defined before it. -/
def Ordered : List α → Set ι → Prop
  | [], _ => True
  | a :: l, X => ReadsOnly value a X ∧ Ordered l (insert (name a) X)

variable {name value}

/-- **An ordered program forgets the store it starts from.** -/
theorem run_agree {l : List α} : ∀ {X : Set ι} {s t : ι → V}, Ordered name value l X →
    (∀ x ∈ X, s x = t x) →
    ∀ x, x ∈ X ∨ x ∈ l.map name → run name value l s x = run name value l t x := by
  induction l with
  | nil =>
    intro X s t _ hst x hx
    rcases hx with hx | hx
    · exact hst x hx
    · cases hx
  | cons a l ih =>
    rintro X s t ⟨hreads, hl⟩ hst x hx
    refine ih hl ?_ x ?_
    · intro y hy
      rcases Set.mem_insert_iff.mp hy with rfl | hy
      · rw [update_self, update_self, hreads s t hst]
      · by_cases hya : y = name a
        · subst hya
          rw [update_self, update_self, hreads s t hst]
        · rw [update_of_ne hya, update_of_ne hya, hst y hy]
    · rcases hx with hx | hx
      · exact .inl (Set.mem_insert_of_mem _ hx)
      · rcases List.mem_cons.mp hx with rfl | hx
        · exact .inl (Set.mem_insert _ _)
        · exact .inr hx

theorem run_frame {l : List α} {x : ι} (hx : x ∉ l.map name) :
    ∀ s, run name value l s x = s x := by
  induction l with
  | nil =>
    intro s
    rfl
  | cons a l ih =>
    intro s
    obtain ⟨hxa, hxl⟩ := not_or.mp (mt List.mem_cons.mpr hx)
    rw [run, ih hxl, update_of_ne hxa]

end Lib.StraightLine
