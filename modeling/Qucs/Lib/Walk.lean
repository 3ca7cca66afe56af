/-
# Counted walks, frontiers, and the pigeonhole on a finite source set

A breadth-first frontier is a list that is replaced, level by level, by the
successors of its members. Nothing is remembered between levels. Which vertices
ever occur in it, and whether it ever runs empty, is answered by walks:

    x ∈ frontier n F      ⟺   some v ∈ F has a walk of exactly n steps to x
    some frontier is []   ⟺   no member of F reaches a vertex on a cycle

The second line needs finitely many vertices with successors; it is the
pigeonhole `exists_cycle_of_steps`.
-/
import Mathlib.Data.List.Nodup
import Mathlib.Data.List.Perm.Subperm

namespace Lib.Walk

open Relation List

variable {α : Type*}

/-- `Steps r n a b`: a walk of exactly `n` steps of `r` from `a` to `b`. -/
inductive Steps (r : α → α → Prop) : Nat → α → α → Prop
  | zero (a : α) : Steps r 0 a a
  | succ {n : Nat} {a b c : α} : r a b → Steps r n b c → Steps r (n + 1) a c

section Steps

variable {r : α → α → Prop}

variable {n : Nat}

theorem Steps.snoc {a b c : α} (h : Steps r n a b) (hbc : r b c) : Steps r (n + 1) a c := by
  induction h with
  | zero a => exact .succ hbc (.zero c)
  | succ hab _ ih => exact .succ hab (ih hbc)

variable {a b : α}

theorem Steps.reflTransGen (h : Steps r n a b) : ReflTransGen r a b := by
  induction h with
  | zero a => exact .refl
  | succ hab _ ih => exact .head hab ih

theorem exists_steps_of_reflTransGen (h : ReflTransGen r a b) : ∃ n, Steps r n a b := by
  induction h with
  | refl => exact ⟨0, .zero a⟩
  | tail _ hbc ih =>
    obtain ⟨n, hn⟩ := ih
    exact ⟨n + 1, hn.snoc hbc⟩

/-- **Pigeonhole.**  If every vertex on the way with a successor is in `L`, a walk longer
than `L` passes through a vertex that lies on a cycle. -/
theorem exists_cycle_of_steps {L : List α} (hL : ∀ x y, ReflTransGen r a x → r x y → x ∈ L)
    (hn : L.length < n) (h : Steps r n a b) : ∃ x, ReflTransGen r a x ∧ TransGen r x x := by
  classical
  induction h generalizing L with
  | zero => exact absurd hn (Nat.not_lt_zero _)
  | @succ n a b c hab _ ih =>
    by_cases hcycle : TransGen r a a
    · exact ⟨a, .refl, hcycle⟩
    have ha := hL a b .refl hab
    obtain ⟨x, hbx, hx⟩ := ih (L := L.erase a) (fun x y hbx hxy => by
      refine (mem_erase_of_ne ?_).mpr (hL x y (.head hab hbx) hxy)
      rintro rfl
      exact hcycle (.head' hab hbx)) (by
      have := length_pos_of_mem ha
      rw [length_erase_of_mem ha]
      omega)
    exact ⟨x, .head hab hbx, hx⟩

theorem wellFounded_of_acyclic {L : List α} (hL : ∀ a b, r a b → a ∈ L)
    (hr : ∀ x, ¬TransGen r x x) : WellFounded (flip r) := by
  have hacc : ∀ n a, (¬∃ b, Steps r n a b) → Acc (flip r) a := by
    intro n
    induction n with
    | zero => exact fun a h => absurd ⟨a, .zero a⟩ h
    | succ n ih => exact fun a h => ⟨a, fun b hab => ih b fun ⟨c, hc⟩ => h ⟨c, .succ hab hc⟩⟩
  refine ⟨fun a => hacc (L.length + 1) a ?_⟩
  rintro ⟨b, hb⟩
  obtain ⟨x, -, hx⟩ := exists_cycle_of_steps (fun x y _ => hL x y) (Nat.lt_succ_self _) hb
  exact hr x hx

/-- Where a walk can be gone backwards in one way only, a cycle at its end is one at its
beginning. -/
theorem cycle_of_leftUnique (hr : Relator.LeftUnique r) {x : α} (hax : ReflTransGen r a x)
    (hx : TransGen r x x) : TransGen r a a := by
  induction hax with
  | refl => exact hx
  | tail _ hyx ih =>
    obtain ⟨z, hxz, hzx⟩ := TransGen.tail'_iff.mp hx
    obtain rfl := hr hzx hyx
    exact ih (.head' hzx hxz)

/-- From where a cycle is reached there are walks of every length. -/
theorem exists_steps_of_cycle {x : α} (hx : TransGen r x x) :
    ∀ (n : Nat) {a : α}, ReflTransGen r a x → ∃ y, Steps r n a y
  | 0, a, _ => ⟨a, .zero a⟩
  | n + 1, a, hax => by
    obtain ⟨b, hab, hbx⟩ : ∃ b, r a b ∧ ReflTransGen r b x := by
      rcases hax.cases_head with rfl | h
      · exact TransGen.head'_iff.mp hx
      · exact h
    obtain ⟨y, hy⟩ := exists_steps_of_cycle hx n hbx
    exact ⟨y, .succ hab hy⟩

end Steps

/-! ## Walks that meet nothing twice -/

/-- Whatever is reached from `a` has the property `P`, was not met before and is on no
cycle. -/
def Clear (r : α → α → Prop) (P : α → Prop) (met : List α) (a : α) : Prop :=
  ∀ x, ReflTransGen r a x → P x ∧ x ∉ met ∧ ¬TransGen r x x

/-- As a search finds it out that notes the vertices on its way. -/
theorem clear_iff {r : α → α → Prop} {P : α → Prop} {met : List α} {a : α} :
    Clear r P met a ↔ P a ∧ a ∉ met ∧ ∀ b, r a b → Clear r P (met ++ [a]) b := by
  constructor
  · intro h
    obtain ⟨hP, hmet, hcycle⟩ := h a .refl
    refine ⟨hP, hmet, fun b hab x hbx => ?_⟩
    obtain ⟨hP', hmet', hcycle'⟩ := h x (.head hab hbx)
    refine ⟨hP', fun hx => ?_, hcycle'⟩
    rcases mem_append.mp hx with hx | hx
    · exact hmet' hx
    · obtain rfl := mem_singleton.mp hx
      exact hcycle (.head' hab hbx)
  · rintro ⟨hP, hmet, hall⟩ x hax
    rcases hax.cases_head with rfl | ⟨b, hab, hbx⟩
    · refine ⟨hP, hmet, fun hcycle => ?_⟩
      obtain ⟨b, hab, hba⟩ := TransGen.head'_iff.mp hcycle
      exact (hall b hab a hba).2.1 (mem_append_right _ (mem_singleton_self a))
    · obtain ⟨hP', hmet', hcycle⟩ := hall b hab x hbx
      exact ⟨hP', fun hx => hmet' (mem_append_left _ hx), hcycle⟩

/-! ## Frontiers -/

/-- The `n`-th frontier of the list `F` under the successor lists `next`. -/
def frontier (next : α → List α) : Nat → List α → List α
  | 0, F => F
  | n + 1, F => frontier next n (F.flatMap next)

def Succ (next : α → List α) (a b : α) : Prop := b ∈ next a

variable {next : α → List α}

theorem mem_frontier : ∀ {n : Nat} {F : List α} {x : α},
    x ∈ frontier next n F ↔ ∃ v ∈ F, Steps (Succ next) n v x
  | 0, F, x => by
    constructor
    · intro hx
      exact ⟨x, hx, .zero x⟩
    · rintro ⟨v, hv, h⟩
      cases h with
      | zero => exact hv
  | n + 1, F, x => by
    simp only [frontier, mem_frontier, mem_flatMap]
    constructor
    · rintro ⟨w, ⟨v, hv, hvw⟩, h⟩
      exact ⟨v, hv, .succ hvw h⟩
    · rintro ⟨v, hv, h⟩
      cases h with
      | succ hvw h => exact ⟨_, ⟨v, hv, hvw⟩, h⟩

theorem exists_mem_frontier {F : List α} {x : α} :
    (∃ n, x ∈ frontier next n F) ↔ ∃ v ∈ F, ReflTransGen (Succ next) v x := by
  constructor
  · rintro ⟨n, hx⟩
    obtain ⟨v, hv, h⟩ := mem_frontier.mp hx
    exact ⟨v, hv, h.reflTransGen⟩
  · rintro ⟨v, hv, h⟩
    obtain ⟨n, hn⟩ := exists_steps_of_reflTransGen h
    exact ⟨n, mem_frontier.mpr ⟨v, hv, hn⟩⟩

theorem exists_frontier_nil {L : List α} (hL : ∀ a b, b ∈ next a → a ∈ L) {F : List α} :
    (∃ n, frontier next n F = []) ↔
      ¬ ∃ v ∈ F, ∃ x, ReflTransGen (Succ next) v x ∧ TransGen (Succ next) x x := by
  constructor
  · rintro ⟨n, hn⟩ ⟨v, hv, x, hvx, hx⟩
    obtain ⟨y, hy⟩ := exists_steps_of_cycle hx n hvx
    have hmem := mem_frontier.mpr ⟨v, hv, hy⟩
    rw [hn] at hmem
    exact not_mem_nil hmem
  · intro hno
    refine ⟨L.length + 1, ?_⟩
    apply eq_nil_iff_forall_not_mem.mpr
    intro y hy
    obtain ⟨v, hv, h⟩ := mem_frontier.mp hy
    obtain ⟨x, hvx, hx⟩ := exists_cycle_of_steps (fun x y _ => hL x y) (Nat.lt_succ_self _) h
    exact hno ⟨v, hv, x, hvx, hx⟩

end Lib.Walk
