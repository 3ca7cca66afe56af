/-
# Electrical connection in a hierarchy

A scope is an instance of a subcircuit type, given by the chain of instances
around it, innermost first; the empty chain is the root. A net of the
hierarchy is a scope with a local node name. Two nets are joined

* bind: a formal with the actual at its position
* global: two occurrences of `gnd` or of a name ending in `!`

and through chains of such ties (`Joined`). The checker ties a little less
when formals repeat or carry a global name: only the last position of a formal
is bound, and a formal hides the global of its name (`Tied`). Where neither
occurs the two relations agree (`ProperFormals.joined_iff_tied`).
-/
import Mathlib.Data.List.Nodup
import Mathlib.Logic.Relation
import Qucs.Hierarchy.Subcircuits
import Qucs.Lib.Dotted

namespace Qucs.Hierarchy

open List

open Lib.Dotted (NoDot)

/-! ## Scopes and nets -/

/-- One level of a scope: a type and the instance of it that is entered. -/
structure Frame where
  type : Subcircuit
  inst : Definition

/-- A scope, innermost frame first. -/
abbrev Scope := List Frame

def path (c : Scope) : List String := (c.map fun f => f.inst.instanceName).reverse

@[simp] theorem path_nil : path [] = [] := rfl

@[simp] theorem path_cons (f : Frame) (c : Scope) :
    path (f :: c) = path c ++ [f.inst.instanceName] := reverse_cons

/-- The elements of a scope of the netlist. -/
inductive InScope (net : Netlist) : Scope → List Definition → Prop
  | root : InScope net [] net.root
  | enter {c : Scope} {ds : List Definition} {d : Definition} {s : Subcircuit} :
      InScope net c ds → d ∈ ds → d.isSub → net.getSubcircuit d = some s →
      InScope net (⟨s, d⟩ :: c) s.sub

variable (net : Netlist)

/-- A leaf component of the hierarchy. -/
def LeafAt (c : Scope) (e : Definition) : Prop :=
  ∃ ds, InScope net c ds ∧ e ∈ ds ∧ e.isSub = false

/-- The formals of a scope; the root has none. -/
def formals : Scope → List String
  | [] => []
  | f :: _ => f.type.nodes

/-- Electrical ties between nets. -/
inductive Tie (net : Netlist) : Scope × String → Scope × String → Prop
  | bind {f : Frame} {c : Scope} {ds : List Definition} {k : ℕ} {a y : String} :
      InScope net (f :: c) ds → f.type.nodes[k]? = some a → f.inst.nodes[k]? = some y →
      Tie net (f :: c, a) (c, y)
  | global {c c' : Scope} {ds ds' : List Definition} {x : String} :
      InScope net c ds → InScope net c' ds' → isGlobal x → Tie net (c, x) (c', x)

def Joined : Scope × String → Scope × String → Prop :=
  Relation.EqvGen (Tie net)

/-- The ties the checker makes: a formal is bound at the last position that
carries it, and it hides the global of its name. -/
inductive CheckerTie (net : Netlist) : Scope × String → Scope × String → Prop
  | bind {f : Frame} {c : Scope} {ds : List Definition} {k : ℕ} {a y : String} :
      InScope net (f :: c) ds → f.type.nodes[k]? = some a → f.inst.nodes[k]? = some y →
      (∀ k', k < k' → f.type.nodes[k']? ≠ some a) → CheckerTie net (f :: c, a) (c, y)
  | global {c c' : Scope} {ds ds' : List Definition} {x : String} :
      InScope net c ds → InScope net c' ds' → isGlobal x → x ∉ formals c → x ∉ formals c' →
      CheckerTie net (c, x) (c', x)

def Tied : Scope × String → Scope × String → Prop :=
  Relation.EqvGen (CheckerTie net)

/-- The formals of every type are distinct, and none is a global name. -/
def ProperFormals : Prop :=
  ∀ s ∈ net.subcircuits, s.nodes.Nodup ∧ ∀ a ∈ s.nodes, isGlobal a = false

/-! ## Well-formed netlists -/

/-- The definition lists of a netlist: the root and the elements of each type. -/
def Netlist.lists : List (List Definition) :=
  net.root :: net.subcircuits.map Subcircuit.sub

/-- The type `a` has an instance of the type `b` among its elements. -/
def Netlist.Uses (a b : String) : Prop :=
  ∃ s, net.findSubcircuit a = some s ∧ ∃ d ∈ s.sub, d.isSub ∧ d.typeRef = some b

/-- The subcircuits are acyclic and fully defined: every instance refers to a
type with as many nodes as it has, and no type contains itself. -/
structure Netlist.Resolved (net : Netlist) : Prop where
  acyclic : ∀ n, ¬Relation.TransGen net.Uses n n
  defined : ∀ ds ∈ net.lists, ∀ d ∈ ds, d.isSub →
    ∃ s, net.getSubcircuit d = some s ∧ d.nodes.length = s.nodes.length

/-- A netlist of acyclic, fully defined subcircuits whose identifiers have no
dot, and in which, as the checker demands, the type and instance name of a
definition are unique in its list. -/
structure Netlist.WellFormed (net : Netlist) : Prop extends net.Resolved where
  unique : ∀ ds ∈ net.lists, (ds.map fun d => (d.type, d.instanceName)).Nodup
  noDot_type : ∀ s ∈ net.subcircuits, NoDot s.instanceName
  noDot_instance : ∀ ds ∈ net.lists, ∀ d ∈ ds, NoDot d.instanceName
  noDot_node : ∀ ds ∈ net.lists, ∀ d ∈ ds, ∀ n ∈ d.nodes, NoDot n

variable {net : Netlist}

theorem getSubcircuit_mem {d : Definition} {s : Subcircuit}
    (h : net.getSubcircuit d = some s) : s ∈ net.subcircuits := by
  obtain ⟨n, -, hn⟩ := Option.bind_eq_some_iff.mp h
  exact mem_of_find?_eq_some hn

variable {c : Scope} {ds : List Definition}

theorem InScope.mem_lists (h : InScope net c ds) : ds ∈ net.lists := by
  cases h with
  | root => exact mem_cons_self
  | enter _ _ _ hs =>
    exact mem_cons_of_mem _ (mem_map.mpr ⟨_, getSubcircuit_mem hs, rfl⟩)

theorem InScope.frame {f : Frame} (h : InScope net (f :: c) ds) :
    ∃ ds', InScope net c ds' ∧ f.inst ∈ ds' ∧ f.inst.isSub ∧
      net.getSubcircuit f.inst = some f.type := by
  cases h with
  | enter hc hd hsub hs => exact ⟨_, hc, hd, hsub, hs⟩

theorem InScope.elements_cons {f : Frame} (h : InScope net (f :: c) ds) : ds = f.type.sub := by
  cases h with
  | enter _ _ _ _ => rfl

theorem InScope.elements {ds ds' : List Definition}
    (h : InScope net c ds) (h' : InScope net c ds') : ds = ds' := by
  cases c with
  | nil =>
    cases h
    cases h'
    rfl
  | cons f c => rw [h.elements_cons, h'.elements_cons]

theorem ProperFormals.joined_iff_tied (hp : ProperFormals net) (p q : Scope × String) :
    Joined net p q ↔ Tied net p q := by
  have hframe : ∀ {f : Frame} {c : Scope} {ds : List Definition}, InScope net (f :: c) ds →
      f.type.nodes.Nodup ∧ ∀ a ∈ f.type.nodes, isGlobal a = false := by
    intro f c ds hc
    obtain ⟨-, -, -, -, hs⟩ := hc.frame
    exact hp f.type (getSubcircuit_mem hs)
  have hfree : ∀ {c : Scope} {ds : List Definition} {x : String}, InScope net c ds →
      isGlobal x → x ∉ formals c := by
    intro c ds x hc hg hx
    cases c with
    | nil => cases hx
    | cons f c =>
      have := (hframe hc).2 x hx
      simp [hg] at this
  constructor
  · intro joined
    refine Relation.EqvGen.mono ?_ p q joined
    intro p q t
    cases t with
    | bind hc hk hy =>
      refine .bind hc hk hy ?_
      intro k' hkk hk'
      have hlt := (List.getElem?_eq_some_iff.mp hk').1
      exact nodup_iff_getElem?_ne_getElem?.mp (hframe hc).1 _ _ hkk hlt (hk.trans hk'.symm)
    | global hc hc' hg => exact .global hc hc' hg (hfree hc hg) (hfree hc' hg)
  · intro tied
    refine Relation.EqvGen.mono ?_ p q tied
    intro p q t
    cases t with
    | bind hc hk hy _ => exact .bind hc hk hy
    | global hc hc' hg _ _ => exact .global hc hc' hg

/-! ## Where a formal is bound -/

/-- The translation of a node, over the pairs of formal and actual. -/
theorem xlat_pairs (n : String) (l : List (String × String)) :
    ((l.zipIdx 1).foldl (fun x p => if n = p.1.1 then some (p.1.2, p.2) else x) none = none ∧
        ∀ p ∈ l, p.1 ≠ n) ∨
      ∃ k y, (l.zipIdx 1).foldl (fun x p => if n = p.1.1 then some (p.1.2, p.2) else x) none =
          some (y, k + 1) ∧ l[k]? = some (n, y) ∧ ∀ k' p, k < k' → l[k']? = some p → p.1 ≠ n := by
  induction l using reverseRecOn with
  | nil => exact .inl ⟨rfl, fun _ h => nomatch h⟩
  | append_singleton l p ih =>
    rw [zipIdx_append, foldl_append]
    by_cases hp : n = p.1
    · refine .inr ⟨l.length, p.2, ?_, ?_, ?_⟩
      · simp [hp, Nat.add_comm]
      · simp [hp]
      · intro k' q hk hq
        rw [getElem?_eq_none (by simp; omega)] at hq
        cases hq
    · have last : ∀ x, ([p].zipIdx (1 + l.length)).foldl
          (fun x p => if n = p.1.1 then some (p.1.2, p.2) else x) x = x := by
        intro x
        simp [hp]
      rw [last]
      rcases ih with ⟨hnone, hl⟩ | ⟨k, y, hsome, hk, hlast⟩
      · refine .inl ⟨hnone, ?_⟩
        intro q hq
        rcases mem_append.mp hq with hq | hq
        · exact hl q hq
        · cases mem_singleton.mp hq
          exact fun e => hp e.symm
      · have hlt : k < l.length := (List.getElem?_eq_some_iff.mp hk).1
        refine .inr ⟨k, y, hsome, by rw [getElem?_append_left hlt, hk], ?_⟩
        intro k' q hkk hq
        rcases Nat.lt_or_ge k' l.length with hlt' | hge
        · rw [getElem?_append_left hlt'] at hq
          exact hlast k' q hkk hq
        · rw [getElem?_append_right hge] at hq
          have hq' := mem_of_getElem? hq
          cases mem_singleton.mp hq'
          exact fun e => hp e.symm

/-- **A node is translated** to the actual at the last position of its formal,
and exactly the formals are translated. -/
theorem xlat_cases {type : Subcircuit} {inst : Definition}
    (hlen : inst.nodes.length = type.nodes.length) (n : String) :
    (xlat type inst n = none ∧ n ∉ type.nodes) ∨
      ∃ k y, xlat type inst n = some (y, k + 1) ∧ type.nodes[k]? = some n ∧
        inst.nodes[k]? = some y ∧ ∀ k', k < k' → type.nodes[k']? ≠ some n := by
  have paired : ∀ {k : ℕ} {a : String}, type.nodes[k]? = some a →
      ∃ b, (type.nodes.zip inst.nodes)[k]? = some (a, b) := by
    intro k a ha
    have hk := (List.getElem?_eq_some_iff.mp ha).1
    refine ⟨inst.nodes[k], getElem?_zip_eq_some.mpr ⟨ha, ?_⟩⟩
    exact getElem?_eq_getElem (hlen ▸ hk)
  rcases xlat_pairs n (type.nodes.zip inst.nodes) with ⟨hnone, hl⟩ | ⟨k, y, hsome, hk, hlast⟩
  · refine .inl ⟨hnone, ?_⟩
    intro hn
    obtain ⟨k, hk⟩ := mem_iff_getElem?.mp hn
    obtain ⟨b, hb⟩ := paired hk
    exact hl (n, b) (mem_of_getElem? hb) rfl
  · obtain ⟨hn, hy⟩ := getElem?_zip_eq_some.mp hk
    refine .inr ⟨k, y, hsome, hn, hy, ?_⟩
    intro k' hkk hk'
    obtain ⟨b, hb⟩ := paired hk'
    exact hlast k' (n, b) hkk hb rfl

end Qucs.Hierarchy
