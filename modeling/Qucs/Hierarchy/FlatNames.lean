/-
# Flat names and what they tell apart

The flat name of a net climbs the bindings of its scope and is then the root
name, the global name or the dotted text of the scope and the local name
(`flatName`). **Equal flat names mean tied nets** (`flatName_eq_iff`), as long
as no identifier has a dot: the climb follows ties of the checker
(`origin_spec`), a tie keeps the name (`flatName_tie`), and the names of two
nets that are not bound any further differ unless both name one global
(`render_injective`).
-/
import Qucs.Hierarchy.Scopes

namespace Qucs.Hierarchy

open List

open Lib.Dotted (NoDot dotted dotted_cons dotted_append dotted_injective toList_foldl_dot)

/-! ## Flat names -/

/-- The flat name of a net: the climb along the bindings. -/
def flatName : Scope → String → String
  | [], x => x
  | f :: c, x =>
    match xlat f.type f.inst x with
    | some (y, _) => flatName c y
    | none =>
      if isGlobal x then x
      else subcircuitNode f.type.instanceName (instanceList (path c)) f.inst.instanceName x

/-- The net at which the climb ends. -/
def origin : Scope → String → Scope × String
  | [], x => ([], x)
  | f :: c, x =>
    match xlat f.type f.inst x with
    | some (y, _) => origin c y
    | none => (f :: c, x)

/-- The name of a net that is not bound any further. -/
def render : Scope × String → String
  | ([], x) => x
  | (f :: c, x) =>
    if isGlobal x then x
    else subcircuitNode f.type.instanceName (instanceList (path c)) f.inst.instanceName x

theorem flatName_eq_render (c : Scope) : ∀ x, flatName c x = render (origin c x) := by
  induction c with
  | nil =>
    intro x
    rfl
  | cons f c ih =>
    intro x
    unfold flatName origin
    cases xlat f.type f.inst x with
    | some p => exact ih p.1
    | none => rfl

/-! ### Dotted texts -/

theorem toList_subcircuitNode (t : String) (p : List String) (i n : String) :
    (subcircuitNode t (instanceList p) i n).toList = dotted (t :: (p ++ [i, n])) := by
  cases p with
  | nil => simp [instanceList, subcircuitNode, dotted, intercalate]
  | cons a p =>
    have split : dotted (t :: (a :: p ++ [i, n])) =
        t.toList ++ '.' :: (dotted (a :: p) ++ '.' :: (i.toList ++ '.' :: n.toList)) := by
      rw [cons_append, dotted_cons, ← cons_append, dotted_append _ _ _ (by simp)]
      simp [dotted, intercalate]
    rw [split]
    simp [instanceList, subcircuitNode, toList_foldl_dot]

theorem InScope.noDot_path {net : Netlist} {c : Scope} {ds : List Definition}
    (hc : InScope net c ds) (inst : ∀ ds ∈ net.lists, ∀ d ∈ ds, NoDot d.instanceName) :
    ∀ s ∈ path c, NoDot s := by
  induction hc with
  | root =>
    intro s hs
    cases hs
  | @enter c ds d _ hc hd _ _ ih =>
    intro s hs
    rw [path_cons] at hs
    rcases mem_append.mp hs with hs | hs
    · exact ih s hs
    · cases mem_singleton.mp hs
      exact inst ds hc.mem_lists d hd

section WellFormed

variable {net : Netlist} (h : net.WellFormed)

include h

variable {c : Scope}

theorem Netlist.WellFormed.arity {f : Frame} {ds : List Definition}
    (hc : InScope net (f :: c) ds) : f.inst.nodes.length = f.type.nodes.length := by
  obtain ⟨ds', hds, hf, hsub, hs⟩ := hc.frame
  obtain ⟨s, hs', hlen⟩ := h.defined ds' hds.mem_lists f.inst hf hsub
  cases hs.symm.trans hs'
  exact hlen

theorem Netlist.WellFormed.origin_spec :
    ∀ {ds : List Definition} {x : String}, InScope net c ds → NoDot x →
      Tied net (c, x) (origin c x) ∧ (∃ ds', InScope net (origin c x).1 ds') ∧
      (origin c x).2 ∉ formals (origin c x).1 ∧ NoDot (origin c x).2 := by
  induction c with
  | nil =>
    intro ds x hc hx
    exact ⟨.refl _, ⟨ds, hc⟩, not_mem_nil, hx⟩
  | cons f c ih =>
    intro ds x hc hx
    unfold origin
    rcases xlat_cases (h.arity hc) x with ⟨hnone, hfree⟩ | ⟨k, y, hsome, hk, hy, hlast⟩
    · rw [hnone]
      exact ⟨.refl _, ⟨ds, hc⟩, hfree, hx⟩
    · rw [hsome]
      obtain ⟨ds', hds, hf, -, -⟩ := hc.frame
      have hdot := h.noDot_node ds' hds.mem_lists f.inst hf y (mem_of_getElem? hy)
      obtain ⟨htied, hrest⟩ := ih hds hdot
      exact ⟨.trans _ _ _ (.rel _ _ (.bind hc hk hy hlast)) htied, hrest⟩

theorem Netlist.WellFormed.flatName_tie {p q : Scope × String} (t : CheckerTie net p q) :
    flatName p.1 p.2 = flatName q.1 q.2 := by
  cases t with
  | bind hc hk hy hlast =>
    rename_i f c ds k a y
    rcases xlat_cases (h.arity hc) a with ⟨-, hfree⟩ | ⟨k', y', hsome, hk', hy', hlast'⟩
    · exact absurd (mem_of_getElem? hk) hfree
    · have same : k' = k := by
        rcases Nat.lt_trichotomy k' k with hlt | heq | hgt
        · exact absurd hk (hlast' k hlt)
        · exact heq
        · exact absurd hk' (hlast k' hgt)
      subst same
      cases hy.symm.trans hy'
      rw [flatName, hsome]
  | global hc hc' hg hfree hfree' =>
    rename_i c c' ds ds' x
    have free : ∀ {c : Scope} {ds : List Definition}, InScope net c ds → x ∉ formals c →
        flatName c x = x := by
      intro c ds hc hx
      cases c with
      | nil => rfl
      | cons f c =>
        rcases xlat_cases (h.arity hc) x with ⟨hnone, -⟩ | ⟨k, y, -, hk, -⟩
        · rw [flatName, hnone, if_pos hg]
        · exact absurd (mem_of_getElem? hk) hx
    exact (free hc hfree).trans (free hc' hfree').symm

theorem Netlist.WellFormed.flatName_tied {p q : Scope × String} (t : Tied net p q) :
    flatName p.1 p.2 = flatName q.1 q.2 := by
  induction t with
  | rel p q t => exact h.flatName_tie t
  | refl p => rfl
  | symm p q _ ih => exact ih.symm
  | trans p q r _ _ ih₁ ih₂ => exact ih₁.trans ih₂

theorem Netlist.WellFormed.path_injective :
    ∀ {c' : Scope} {ds ds' : List Definition}, InScope net c ds → InScope net c' ds' →
      path c = path c' → c = c' := by
  induction c with
  | nil =>
    intro c' ds ds' _ _ e
    cases c' with
    | nil => rfl
    | cons f c' => simp at e
  | cons f c ih =>
    intro c' ds ds' hc hc' e
    cases c' with
    | nil => simp at e
    | cons f' c' =>
      rw [path_cons, path_cons] at e
      have e₁ := append_inj_left' e rfl
      have e₂ := singleton_inj.mp (append_inj_right' e rfl)
      obtain ⟨d, hd, hf, hsub, hs⟩ := hc.frame
      obtain ⟨d', hd', hf', hsub', hs'⟩ := hc'.frame
      cases ih hd hd' e₁
      cases hd.elements hd'
      have hinst : f.inst = f'.inst := by
        apply inj_on_of_nodup_map (h.unique d hd.mem_lists) hf hf'
        rw [e₂, beq_iff_eq.mp hsub, beq_iff_eq.mp hsub']
      cases f
      cases f'
      cases hinst
      cases hs.symm.trans hs'
      rfl

theorem Netlist.WellFormed.noDot_parts {f : Frame} {ds : List Definition} {x : String}
    (hc : InScope net (f :: c) ds) (hx : NoDot x) :
    ∀ s ∈ f.type.instanceName :: (path c ++ [f.inst.instanceName, x]), NoDot s := by
  obtain ⟨ds', hds, hf, -, hs⟩ := hc.frame
  intro s hmem
  simp only [mem_cons, mem_append, not_mem_nil, or_false] at hmem
  rcases hmem with rfl | hp | rfl | rfl
  · exact h.noDot_type f.type (getSubcircuit_mem hs)
  · exact hds.noDot_path h.noDot_instance s hp
  · exact h.noDot_instance ds' hds.mem_lists f.inst hf
  · exact hx

end WellFormed

theorem not_noDot_subcircuitNode (t : String) (p : List String) (i n : String) :
    ¬NoDot (subcircuitNode t (instanceList p) i n) := by
  intro hd
  apply hd
  rw [toList_subcircuitNode]
  cases p with
  | nil => simp [dotted_cons]
  | cons a p => simp [dotted_cons]

section WellFormed

variable {net : Netlist} (h : net.WellFormed)

include h

variable {c c' : Scope} {ds ds' : List Definition} {x y : String}

/-- The name of an internal node, or of an element, tells its scope. -/
theorem Netlist.WellFormed.subcircuitNode_injective {f f' : Frame} (hc : InScope net (f :: c) ds)
    (hc' : InScope net (f' :: c') ds') (hx : NoDot x) (hy : NoDot y)
    (e : subcircuitNode f.type.instanceName (instanceList (path c)) f.inst.instanceName x =
      subcircuitNode f'.type.instanceName (instanceList (path c')) f'.inst.instanceName y) :
    f :: c = f' :: c' ∧ x = y := by
  have parts := congrArg String.toList e
  rw [toList_subcircuitNode, toList_subcircuitNode] at parts
  have lists := dotted_injective (h.noDot_parts hc hx) (h.noDot_parts hc' hy) (by simp)
    (by simp) parts
  have ends := (cons.inj lists).2
  have snoc : ∀ (p : List String) (i n : String), p ++ [i, n] = (p ++ [i]) ++ [n] := by
    intro p i n
    simp
  rw [snoc, snoc, ← path_cons, ← path_cons] at ends
  exact ⟨h.path_injective hc hc' (append_inj_left' ends rfl),
    singleton_inj.mp (append_inj_right' ends rfl)⟩

variable (hc : InScope net c ds) (hc' : InScope net c' ds') (hx : NoDot x) (hy : NoDot y)
include hc hc' hx hy

/-- **Names tell free nets apart**, except for the globals they name. -/
theorem Netlist.WellFormed.render_injective (e : render (c, x) = render (c', y)) :
    (c, x) = (c', y) ∨ x = y ∧ isGlobal x := by
  have shape : ∀ {c : Scope} {x : String}, (render (c, x) = x ∧ (c = [] ∨ isGlobal x)) ∨
      ∃ f c₁, c = f :: c₁ ∧ render (c, x) =
        subcircuitNode f.type.instanceName (instanceList (path c₁)) f.inst.instanceName x := by
    intro c x
    cases c with
    | nil => exact .inl ⟨rfl, .inl rfl⟩
    | cons f c =>
      cases hg : isGlobal x with
      | true => exact .inl ⟨if_pos hg, .inr rfl⟩
      | false => exact .inr ⟨f, c, rfl, by simp [render, hg]⟩
  rcases shape (c := c) (x := x) with ⟨ex, hg⟩ | ⟨f, c₁, rfl, ex⟩
  · rcases shape (c := c') (x := y) with ⟨ey, hg'⟩ | ⟨f', c₁', rfl, ey⟩
    · have hxy : x = y := ex.symm.trans (e.trans ey)
      subst hxy
      rcases hg with rfl | hg
      · rcases hg' with rfl | hg'
        · exact .inl rfl
        · exact .inr ⟨rfl, hg'⟩
      · exact .inr ⟨rfl, hg⟩
    · rw [ex, ey] at e
      exact absurd (e ▸ hx) (not_noDot_subcircuitNode _ _ _ _)
  · rcases shape (c := c') (x := y) with ⟨ey, -⟩ | ⟨f', c₁', rfl, ey⟩
    · rw [ex, ey] at e
      exact absurd (e.symm ▸ hy) (not_noDot_subcircuitNode _ _ _ _)
    · rw [ex, ey] at e
      obtain ⟨hscope, rfl⟩ := h.subcircuitNode_injective hc hc' hx hy e
      rw [hscope]
      exact .inl rfl

/-- **Equal flat names mean tied nets.** -/
theorem Netlist.WellFormed.flatName_eq_iff :
    flatName c x = flatName c' y ↔ Tied net (c, x) (c', y) := by
  constructor
  · intro e
    rw [flatName_eq_render, flatName_eq_render] at e
    obtain ⟨t, ⟨d, hd⟩, hfree, hdot⟩ := h.origin_spec hc hx
    obtain ⟨t', ⟨d', hd'⟩, hfree', hdot'⟩ := h.origin_spec hc' hy
    refine .trans _ _ _ t (.trans _ _ _ ?_ (.symm _ _ t'))
    rcases h.render_injective hd hd' hdot hdot' e with same | ⟨same, hg⟩
    · have same' : origin c x = origin c' y := same
      rw [same']
      exact .refl _
    · refine .rel _ _ ?_
      generalize origin c x = o at hd hfree hg same
      generalize origin c' y = o' at hd' hfree' same
      cases o
      cases o'
      cases same
      exact .global hd hd' hg hfree hfree'
  · exact h.flatName_tied

end WellFormed

end Qucs.Hierarchy
