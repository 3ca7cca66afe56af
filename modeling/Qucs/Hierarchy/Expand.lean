/-
# The flat netlist has the connections of the hierarchy

`copySubcircuits` names the nodes of a leaf in pieces: what is bound in the
scope being copied stays blank until the copy returns to the caller. `climb`
is the name a node has after a given number of returns; one return is one call
of `copyCircuitNodes` (`climb_append`), and after the last it is the flat name
(`climb_root`). With that, the copies of a type are its leaves, each once
(`copySubcircuits_leaves`).

**Main result** (`expandSubcircuits_connectivity`): for every well-formed
netlist the expansion ends, every leaf of the hierarchy has exactly one copy,
and two terminals have the same node name iff their nets are tied.
With proper formals these are the electrical connections; a repeated formal
breaks one (`expandSubcircuits_repeatedFormal`).
-/
import Mathlib.Data.Finset.Card
import Qucs.Hierarchy.FlatNames

namespace Qucs.Hierarchy

open List

open Lib.Dotted (NoDot dotted_injective)

/-! ## Names during the climb -/

/-- The name of a node of the innermost scope of `c`, after its copy has
returned through all frames of `c`; `ctx` is the scope around them. -/
def climb (ctx : Scope) : Scope → String → Node
  | [], x => ⟨some x, 0⟩
  | [f], x => newNode f.type f.inst (instanceList (path ctx)) x
  | f :: g :: c, x =>
    match xlat f.type f.inst x with
    | some (y, _) => climb ctx (g :: c) y
    | none => newNode f.type f.inst (instanceList (path (g :: c ++ ctx))) x

theorem newNode_bound {type : Subcircuit} {inst : Definition} {n y : String} {nr : ℕ} (f : Frame)
    (ctx : Scope) (hx : xlat type inst n = some (y, nr)) :
    newNode type inst (instanceList (path (f :: ctx))) n = ⟨none, nr⟩ := by
  unfold newNode
  rw [hx, path_cons]
  cases path ctx with
  | nil => rfl
  | cons _ _ => rfl

variable {n : String}

theorem newNode_free {type : Subcircuit} {inst : Definition} (l : Option String)
    (hx : xlat type inst n = none) : ∃ name, (newNode type inst l n).node = some name := by
  unfold newNode
  rw [hx]
  cases isGlobal n with
  | true => exact ⟨_, rfl⟩
  | false => exact ⟨_, rfl⟩

/-- The instances of a scope have as many nodes as their types. -/
def Matching (c : Scope) : Prop := ∀ f ∈ c, f.inst.nodes.length = f.type.nodes.length

/-- **One return**: the caller, an element list of the frame `f`, fills in what
its instance `g.inst` left blank. -/
theorem climb_append {f g : Frame} (ctx c : Scope) :
    ∀ x, Matching (c ++ [g]) →
      fillNode f.type f.inst g.inst (instanceList (path ctx)) (climb (f :: ctx) (c ++ [g]) x) =
        some (climb ctx (c ++ [g] ++ [f]) x) := by
  induction c with
  | nil =>
    intro x hm
    show fillNode _ _ _ _ (newNode g.type g.inst (instanceList (path (f :: ctx))) x) =
      some (climb ctx [g, f] x)
    unfold climb
    rcases xlat_cases (hm g (by simp)) x with ⟨hx, -⟩ | ⟨k, y, hx, -, hy, -⟩
    · rw [hx]
      obtain ⟨name, hname⟩ := newNode_free (instanceList (path (f :: ctx))) hx
      unfold fillNode
      rw [hname]
      rfl
    · rw [hx, newNode_bound f ctx hx]
      simp [fillNode, hy, climb]
  | cons h c ih =>
    intro x hm
    obtain ⟨h', c', e⟩ : ∃ h' c', c ++ [g] = h' :: c' := exists_cons_of_ne_nil (by simp)
    have hm' : Matching (c ++ [g]) := fun f' hf' => hm f' (mem_cons_of_mem _ hf')
    have outer : climb (f :: ctx) (h :: (c ++ [g])) x =
        match xlat h.type h.inst x with
        | some (y, _) => climb (f :: ctx) (c ++ [g]) y
        | none => newNode h.type h.inst (instanceList (path (c ++ [g] ++ f :: ctx))) x := by
      rw [e]
      rfl
    have inner : climb ctx (h :: (c ++ [g] ++ [f])) x =
        match xlat h.type h.inst x with
        | some (y, _) => climb ctx (c ++ [g] ++ [f]) y
        | none => newNode h.type h.inst (instanceList (path (c ++ [g] ++ f :: ctx))) x := by
      rw [e]
      show (match xlat h.type h.inst x with
        | some (y, _) => _
        | none => newNode h.type h.inst (instanceList (path (h' :: (c' ++ [f]) ++ ctx))) x) = _
      simp
    rw [cons_append, outer, cons_append, inner]
    cases hx : xlat h.type h.inst x with
    | some p => exact ih p.1 hm'
    | none =>
      obtain ⟨name, hname⟩ := newNode_free (instanceList (path (c ++ [g] ++ f :: ctx))) hx
      unfold fillNode
      rw [hname]

theorem climb_root (f : Frame) (c : Scope) :
    ∀ x, (climb [] (f :: c) x).node = some (flatName (f :: c) x) := by
  induction c generalizing f with
  | nil =>
    intro x
    unfold climb flatName newNode
    cases xlat f.type f.inst x with
    | some p => rfl
    | none =>
      cases isGlobal x with
      | true => rfl
      | false => rfl
  | cons g c ih =>
    intro x
    unfold climb flatName
    cases hx : xlat f.type f.inst x with
    | some p => exact ih g p.1
    | none =>
      unfold newNode
      rw [hx, append_nil]
      cases isGlobal x with
      | true => rfl
      | false => rfl

/-! ## Leaves -/

/-- The leaves of one definition: itself, or those below its type. -/
def leavesOf (net : Netlist) (below : List Definition → List (Scope × Definition))
    (d : Definition) : List (Scope × Definition) :=
  if d.isSub then
    match net.getSubcircuit d with
    | some s => (below s.sub).map fun l => (l.1 ++ [⟨s, d⟩], l.2)
    | none => []
  else [([], d)]

/-- The leaves below a list of definitions, with their scopes inside it, in the
order in which their copies are chained. -/
def leaves (net : Netlist) : ℕ → List Definition → List (Scope × Definition)
  | 0, _ => []
  | fuel + 1, ds => ds.reverse.flatMap (leavesOf net (leaves net fuel))

variable {net : Netlist} {d : Definition}

theorem leavesOf_component (hsub : d.isSub = false)
    (below : List Definition → List (Scope × Definition)) : leavesOf net below d = [([], d)] := by
  simp [leavesOf, hsub]

variable {s : Subcircuit}

theorem leavesOf_sub (hsub : d.isSub)
    (hs : net.getSubcircuit d = some s) (below : List Definition → List (Scope × Definition)) :
    leavesOf net below d = (below s.sub).map fun l => (l.1 ++ [⟨s, d⟩], l.2) := by
  simp [leavesOf, hsub, hs]

theorem mem_leavesOf {l : Scope × Definition}
    {below : List Definition → List (Scope × Definition)} : l ∈ leavesOf net below d ↔
      (l = ([], d) ∧ d.isSub = false) ∨ d.isSub ∧ ∃ s, net.getSubcircuit d = some s ∧
        ∃ c, (c, l.2) ∈ below s.sub ∧ l.1 = c ++ [⟨s, d⟩] := by
  cases hsub : d.isSub with
  | false => simp [leavesOf_component hsub]
  | true =>
    cases hs : net.getSubcircuit d with
    | none => simp [leavesOf, hsub, hs]
    | some s =>
      rw [leavesOf_sub hsub hs, mem_map]
      constructor
      · rintro ⟨l', hl', rfl⟩
        exact .inr ⟨rfl, s, rfl, l'.1, hl', rfl⟩
      · rintro (⟨-, hf⟩ | ⟨-, _, ⟨⟩, c, hc, e⟩)
        · cases hf
        · exact ⟨(c, l.2), hc, by rw [← e]⟩

theorem mem_leaves_succ {fuel : ℕ} {ds : List Definition}
    {l : Scope × Definition} : l ∈ leaves net (fuel + 1) ds ↔
      (l.1 = [] ∧ l.2 ∈ ds ∧ l.2.isSub = false) ∨
      ∃ d ∈ ds, d.isSub ∧ ∃ s, net.getSubcircuit d = some s ∧
        ∃ c, (c, l.2) ∈ leaves net fuel s.sub ∧ l.1 = c ++ [⟨s, d⟩] := by
  simp only [leaves, mem_flatMap, mem_reverse, mem_leavesOf]
  constructor
  · rintro ⟨d, hd, ⟨rfl, hsub⟩ | below⟩
    · exact .inl ⟨rfl, hd, hsub⟩
    · exact .inr ⟨d, hd, below⟩
  · rintro (⟨h₁, hd, hsub⟩ | ⟨d, hd, below⟩)
    · exact ⟨l.2, hd, .inl ⟨Prod.ext h₁ rfl, hsub⟩⟩
    · exact ⟨d, hd, .inr below⟩

theorem mem_leaves_mono {n m : ℕ} (hnm : n ≤ m) :
    ∀ {ds : List Definition} {l : Scope × Definition}, l ∈ leaves net n ds →
      l ∈ leaves net m ds := by
  induction n generalizing m with
  | zero =>
    intro ds l hl
    cases hl
  | succ n ih =>
    intro ds l hl
    obtain ⟨m, rfl⟩ : ∃ m', m = m' + 1 := ⟨m - 1, by omega⟩
    rcases mem_leaves_succ.mp hl with here | ⟨d, hd, hsub, s, hs, c, hc, e⟩
    · exact mem_leaves_succ.mpr (.inl here)
    · exact mem_leaves_succ.mpr (.inr ⟨d, hd, hsub, s, hs, c, ih (by omega) hc, e⟩)

theorem leafAt_of_mem_leaves {n : ℕ} :
    ∀ {ds : List Definition} {c₀ : Scope} {l : Scope × Definition}, InScope net c₀ ds →
      l ∈ leaves net n ds → LeafAt net (l.1 ++ c₀) l.2 := by
  induction n with
  | zero =>
    intro ds c₀ l _ hl
    cases hl
  | succ n ih =>
    intro ds c₀ l hc₀ hl
    rcases mem_leaves_succ.mp hl with ⟨e, hd, hsub⟩ | ⟨d, hd, hsub, s, hs, c, hc, e⟩
    · rw [e]
      exact ⟨ds, hc₀, hd, hsub⟩
    · have := ih (hc₀.enter hd hsub hs) hc
      rw [e, append_assoc]
      exact this

variable {c : Scope}

theorem InScope.mem_leaves {ds : List Definition}
    (h : InScope net c ds) : ∀ {n : ℕ} {l : Scope × Definition}, l ∈ leaves net n ds →
      (l.1 ++ c, l.2) ∈ leaves net (n + c.length) net.root := by
  induction h with
  | root =>
    intro n l hl
    simpa using hl
  | enter _ hd hsub hs ih =>
    rename_i c ds d s _
    intro n l hl
    have up : (l.1 ++ [⟨s, d⟩], l.2) ∈ leaves net (n + 1) ds :=
      mem_leaves_succ.mpr (.inr ⟨d, hd, hsub, s, hs, l.1, hl, rfl⟩)
    have := ih up
    rw [length_cons, ← Nat.add_assoc, Nat.add_right_comm]
    simpa using this

theorem LeafAt.mem_leaves {e : Definition} (h : LeafAt net c e)
    {n : ℕ} (hn : c.length < n) : (c, e) ∈ leaves net n net.root := by
  obtain ⟨ds, hc, he, hsub⟩ := h
  have here : ([], e) ∈ leaves net 1 ds := mem_leaves_succ.mpr (.inl ⟨rfl, he, hsub⟩)
  exact mem_leaves_mono (by omega) (hc.mem_leaves here)

/-- The copy of a leaf whose scope is `c`, inside `ctx`. -/
def copyIn (ctx : Scope) : Scope → Definition → Copy
  | [], e => ⟨e.type, e.instanceName, e.nodes.map fun n => ⟨some n, 0⟩⟩
  | f :: c, e =>
    ⟨e.type, subcircuitNode f.type.instanceName (instanceList (path (c ++ ctx)))
      f.inst.instanceName e.instanceName, e.nodes.map (climb ctx (f :: c))⟩

theorem mapM_map_some {α β γ : Type*} {g : α → β} {F : β → Option γ} {g' : α → γ} {l : List α}
    (h : ∀ x ∈ l, F (g x) = some (g' x)) : (l.map g).mapM F = some (l.map g') := by
  induction l with
  | nil => rfl
  | cons x l ih =>
    have hl := ih fun y hy => h y (mem_cons_of_mem _ hy)
    simp [mapM_cons, h x mem_cons_self, hl]

theorem copyCircuitNodes_copyIn {f g : Frame} (ctx : Scope) (e : Definition)
    (hm : Matching (c ++ [g])) :
    copyCircuitNodes f.type f.inst g.inst (instanceList (path ctx))
      (copyIn (f :: ctx) (c ++ [g]) e) = some (copyIn ctx (c ++ [g] ++ [f]) e) := by
  have nodes := mapM_map_some (l := e.nodes) fun x _ => climb_append (f := f) ctx c x hm
  obtain ⟨h, c', hc⟩ : ∃ h c', c ++ [g] = h :: c' := exists_cons_of_ne_nil (by simp)
  rw [hc] at nodes ⊢
  unfold copyCircuitNodes copyIn
  simp only [nodes, cons_append, Option.map_some, append_assoc, nil_append]

/-! ## Acyclic netlists -/

theorem getSubcircuit_found (h : net.getSubcircuit d = some s) :
    net.findSubcircuit s.instanceName = some s ∧ d.typeRef = some s.instanceName := by
  obtain ⟨n, hn, hs⟩ := Option.bind_eq_some_iff.mp h
  have name : s.instanceName = n :=
    beq_iff_eq.mp (find?_some (p := fun s : Subcircuit => s.instanceName == n) hs)
  rw [name]
  exact ⟨hs, hn⟩

open Classical in
/-- How many types are used below a type. -/
noncomputable def rank (net : Netlist) (n : String) : ℕ :=
  ((net.subcircuits.map Subcircuit.instanceName).toFinset.filter
    fun m => Relation.TransGen net.Uses n m).card

theorem rank_le (net : Netlist) (n : String) : rank net n ≤ net.subcircuits.length := by
  classical
  calc rank net n ≤ (net.subcircuits.map Subcircuit.instanceName).toFinset.card :=
        Finset.card_filter_le _ _
    _ ≤ (net.subcircuits.map Subcircuit.instanceName).length := toFinset_card_le _
    _ = net.subcircuits.length := length_map _

/-- A type that does not contain itself ranks below those that use it. -/
theorem rank_lt_of_uses (uses : net.Uses n s.instanceName) (hs : s ∈ net.subcircuits)
    (hc : ¬Relation.TransGen net.Uses s.instanceName s.instanceName) :
    rank net s.instanceName < rank net n := by
  classical
  apply Finset.card_lt_card
  refine (Finset.ssubset_iff_of_subset ?_).mpr ⟨s.instanceName, ?_, ?_⟩
  · intro m hm
    obtain ⟨hmem, htrans⟩ := Finset.mem_filter.mp hm
    exact Finset.mem_filter.mpr ⟨hmem, .head uses htrans⟩
  · refine Finset.mem_filter.mpr ⟨?_, .single uses⟩
    exact mem_toFinset.mpr (mem_map.mpr ⟨s, hs, rfl⟩)
  · intro hm
    exact hc (Finset.mem_filter.mp hm).2

/-- Types that can be numbered so that every type uses lower ones only. -/
theorem acyclic_of_rank (r : String → ℕ)
    (hr : ∀ s ∈ net.subcircuits, ∀ d ∈ s.sub, d.isSub → ∀ n ∈ d.typeRef, r n < r s.instanceName) :
    ∀ n, ¬Relation.TransGen net.Uses n n := by
  have down : ∀ {n m : String}, Relation.TransGen net.Uses n m → r m < r n := by
    intro n m hnm
    have one : ∀ {n m : String}, net.Uses n m → r m < r n := by
      rintro n m ⟨s, hs, d, hd, hsub, href⟩
      have name : s.instanceName = n :=
        beq_iff_eq.mp (find?_some (p := fun s : Subcircuit => s.instanceName == n) hs)
      have := hr s (mem_of_find?_eq_some hs) d hd hsub m href
      rwa [name] at this
    induction hnm with
    | single huse => exact one huse
    | tail _ huse ih => exact (one huse).trans ih
  intro n hn
  exact Nat.lt_irrefl _ (down hn)

section Resolved

variable {net : Netlist} (h : net.Resolved)

include h

theorem Netlist.Resolved.rank_lt {s s' : Subcircuit} {d : Definition}
    (hs : net.findSubcircuit s.instanceName = some s) (hd : d ∈ s.sub) (hsub : d.isSub)
    (hs' : net.getSubcircuit d = some s') : rank net s'.instanceName < rank net s.instanceName :=
  rank_lt_of_uses ⟨s, hs, d, hd, hsub, (getSubcircuit_found hs').2⟩ (getSubcircuit_mem hs')
    (h.acyclic _)

theorem Netlist.Resolved.depth_le {f : Frame} {c : Scope} {ds : List Definition}
    (hc : InScope net (f :: c) ds) :
    rank net f.type.instanceName + c.length ≤ net.subcircuits.length := by
  induction c generalizing f ds with
  | nil => exact rank_le net _
  | cons g c ih =>
    obtain ⟨ds', hc', hd, hsub, hs⟩ := hc.frame
    obtain ⟨_, -, -, -, hs'⟩ := hc'.frame
    rw [hc'.elements_cons] at hd
    have deeper := ih hc'
    have lower := h.rank_lt (getSubcircuit_found hs').1 hd hsub hs
    rw [length_cons]
    omega

theorem Netlist.Resolved.leaf_depth {c : Scope} {e : Definition} (hl : LeafAt net c e) :
    c.length ≤ net.subcircuits.length + 1 := by
  obtain ⟨ds, hc, -, -⟩ := hl
  cases c with
  | nil => exact Nat.zero_le _
  | cons f c =>
    have := h.depth_le hc
    simp only [length_cons]
    omega

theorem Netlist.Resolved.leaves_matching {n : ℕ} :
    ∀ {ds : List Definition} {l : Scope × Definition}, ds ∈ net.lists → l ∈ leaves net n ds →
      Matching l.1 := by
  induction n with
  | zero =>
    intro ds l _ hl
    cases hl
  | succ n ih =>
    intro ds l hds hl
    rcases mem_leaves_succ.mp hl with ⟨e, -, -⟩ | ⟨d, hd, hsub, s, hs, c, hc, e⟩
    · rw [e]
      exact fun _ hf => nomatch hf
    · rw [e]
      intro f hf
      rcases mem_append.mp hf with hf | hf
      · have hlist : s.sub ∈ net.lists :=
          mem_cons_of_mem _ (mem_map.mpr ⟨s, getSubcircuit_mem hs, rfl⟩)
        exact ih hlist hc f hf
      · cases mem_singleton.mp hf
        obtain ⟨s', hs', hlen⟩ := h.defined ds hds d hd hsub
        cases hs.symm.trans hs'
        exact hlen

theorem Netlist.Resolved.leaves_stable {n : ℕ} :
    ∀ {m : ℕ} {s : Subcircuit}, net.findSubcircuit s.instanceName = some s →
      rank net s.instanceName < n → n ≤ m → leaves net m s.sub = leaves net n s.sub := by
  induction n with
  | zero =>
    intro m s _ hr _
    exact absurd hr (Nat.not_lt_zero _)
  | succ n ih =>
    intro m s hs hr hm
    obtain ⟨m, rfl⟩ : ∃ m', m = m' + 1 := ⟨m - 1, by omega⟩
    apply flatMap_congr
    intro d hd
    have hd' := mem_reverse.mp hd
    cases hsub : d.isSub with
    | false => rw [leavesOf_component hsub, leavesOf_component hsub]
    | true =>
      cases hs' : net.getSubcircuit d with
      | none => simp [leavesOf, hs']
      | some s' =>
        have lower := h.rank_lt hs hd' hsub hs'
        have same := ih (m := m) (getSubcircuit_found hs').1 (by omega) (by omega)
        rw [leavesOf_sub hsub hs', leavesOf_sub hsub hs', same]

end Resolved

/-! ## The copies -/

theorem foldlM_congr {α β : Type*} {f g : β → α → Option β} {l : List α}
    (hfg : ∀ d ∈ l, ∀ b, f b d = g b d) : ∀ b, l.foldlM f b = l.foldlM g b := by
  induction l with
  | nil =>
    intro b
    rfl
  | cons d l ih =>
    intro b
    have tail := ih fun d' hd' => hfg d' (mem_cons_of_mem _ hd')
    rw [foldlM_cons, foldlM_cons, hfg d mem_cons_self b]
    cases g b d with
    | none => rfl
    | some b' => exact tail b'

section

variable {α β : Type*} {f : List β → α → Option (List β)} {l : List α} (chunk : α → List β)
include chunk

/-- A loop that puts one chunk after the other at the head of a list. -/
theorem foldlM_chunks (hf : ∀ d ∈ l, ∀ root, f root d = some (chunk d ++ root)) :
    ∀ root, l.foldlM f root = some (l.reverse.flatMap chunk ++ root) := by
  induction l with
  | nil =>
    intro root
    rfl
  | cons d l ih =>
    intro root
    rw [foldlM_cons, hf d mem_cons_self root]
    have rest := ih (fun d' hd' => hf d' (mem_cons_of_mem _ hd')) (chunk d ++ root)
    simpa using rest

/-- A loop that adds one chunk after the other to a list, wherever. -/
theorem foldlM_chunks_perm
    (hf : ∀ d ∈ l, ∀ root, ∃ r, f root d = some r ∧ r.Perm (chunk d ++ root)) :
    ∀ root, ∃ r, l.foldlM f root = some r ∧ r.Perm (l.reverse.flatMap chunk ++ root) := by
  induction l with
  | nil =>
    intro root
    exact ⟨root, rfl, .refl _⟩
  | cons d l ih =>
    intro root
    obtain ⟨r, hr, hp⟩ := hf d mem_cons_self root
    obtain ⟨r', hr', hp'⟩ := ih (fun d' hd' => hf d' (mem_cons_of_mem _ hd')) r
    refine ⟨r', by rw [foldlM_cons, hr]; exact hr', hp'.trans ?_⟩
    simpa using hp.append_left (l.reverse.flatMap chunk)

end

section Resolved

variable {net : Netlist} (h : net.Resolved)

include h

/-- **The copies of an instance are the leaves of its type.** -/
theorem Netlist.Resolved.copySubcircuits_leaves {fuel : ℕ} :
    ∀ {s : Subcircuit} (inst : Definition) (ctx : Scope),
      net.findSubcircuit s.instanceName = some s → rank net s.instanceName < fuel →
      copySubcircuits net fuel s inst (path ctx) =
        some ((leaves net fuel s.sub).map fun l => copyIn ctx (l.1 ++ [⟨s, inst⟩]) l.2) := by
  induction fuel with
  | zero =>
    intro s inst ctx _ hr
    exact absurd hr (Nat.not_lt_zero _)
  | succ fuel ih =>
    intro s inst ctx hs hr
    have hlist : s.sub ∈ net.lists :=
      mem_cons_of_mem _ (mem_map.mpr ⟨s, mem_of_find?_eq_some hs, rfl⟩)
    rw [copySubcircuits, leaves]
    refine (foldlM_chunks (fun d => (leavesOf net (leaves net fuel) d).map fun l =>
      copyIn ctx (l.1 ++ [⟨s, inst⟩]) l.2) ?_ []).trans ?_
    · intro d hd root
      cases hsub : d.isSub with
      | false =>
        rw [leavesOf_component hsub]
        rfl
      | true =>
        obtain ⟨s', hs', hlen⟩ := h.defined s.sub hlist d hd hsub
        have lower := h.rank_lt hs hd hsub hs'
        have inner := ih d (⟨s, inst⟩ :: ctx) (getSubcircuit_found hs').1 (by omega)
        have hlist' : s'.sub ∈ net.lists :=
          mem_cons_of_mem _ (mem_map.mpr ⟨s', getSubcircuit_mem hs', rfl⟩)
        have filled := mapM_map_some (l := leaves net fuel s'.sub) fun l hl =>
          copyCircuitNodes_copyIn (f := ⟨s, inst⟩) (g := ⟨s', d⟩) ctx (c := l.1) l.2
            (by
              intro f hf
              rcases mem_append.mp hf with hf | hf
              · exact h.leaves_matching hlist' hl f hf
              · cases mem_singleton.mp hf
                exact hlen)
        rw [path_cons] at inner
        rw [leavesOf_sub hsub hs']
        simp only [if_true, hs', inner, Option.bind_eq_bind, Option.bind_some, filled,
          map_map, Function.comp_def]
    · rw [append_nil, map_flatMap]

theorem Netlist.Resolved.expand_step {fuel : ℕ} (hf : net.subcircuits.length < fuel)
    {d : Definition} (hd : d ∈ net.root) (hsub : d.isSub) :
    ∃ s, net.getSubcircuit d = some s ∧ copySubcircuits net fuel s d [] =
      some ((leaves net (net.subcircuits.length + 1) s.sub).map fun l =>
        copyIn [] (l.1 ++ [⟨s, d⟩]) l.2) := by
  obtain ⟨s, hs, -⟩ := h.defined net.root mem_cons_self d hd hsub
  have hr := rank_le net s.instanceName
  have found := (getSubcircuit_found hs).1
  have copies := h.copySubcircuits_leaves d [] found (Nat.lt_of_le_of_lt hr hf)
  rw [path_nil, h.leaves_stable found (Nat.lt_succ_of_le hr) hf] at copies
  exact ⟨s, hs, copies⟩

/-- **The expansion of the root list** gives the copies of all leaves, for any
fuel above the number of types. -/
theorem Netlist.Resolved.expand_leaves :
    ∃ flat, (∀ fuel, net.subcircuits.length < fuel → expandSubcircuits net fuel = some flat) ∧
      flat.Perm ((leaves net (net.subcircuits.length + 2) net.root).map fun l =>
        copyIn [] l.1 l.2) := by
  let below := leaves net (net.subcircuits.length + 1)
  let body (before : List Copy) (d : Definition) : Option (List Copy) :=
    if d.isSub then some ((leavesOf net below d).map (fun l => copyIn [] l.1 l.2) ++ before)
    else some (before ++ [copyIn [] [] d])
  have loop : ∀ fuel, net.subcircuits.length < fuel →
      expandSubcircuits net fuel = net.root.foldlM body [] := by
    intro fuel hf
    apply foldlM_congr
    intro d hd before
    cases hsub : d.isSub with
    | false => simp only [body, hsub]; rfl
    | true =>
      obtain ⟨s, hs, copies⟩ := h.expand_step hf hd hsub
      simp only [body, hsub, if_true, hs, copies, leavesOf_sub hsub hs, Option.bind_eq_bind,
        Option.bind_some, map_map, below, Function.comp_def]
  obtain ⟨flat, hflat, hperm⟩ := foldlM_chunks_perm (f := body)
    (fun d => (leavesOf net below d).map fun l => copyIn [] l.1 l.2)
    (by
      intro d _ before
      cases hsub : d.isSub with
      | false =>
        rw [leavesOf_component hsub]
        exact ⟨_, by simp only [body, hsub]; rfl, perm_append_comm⟩
      | true => exact ⟨_, by simp only [body, hsub, if_true], .refl _⟩) []
  refine ⟨flat, fun fuel hf => (loop fuel hf).trans hflat, ?_⟩
  rwa [append_nil, ← map_flatMap] at hperm

end Resolved

section WellFormed

variable {net : Netlist} (h : net.WellFormed)

include h

theorem Netlist.WellFormed.leaves_nodup {n : ℕ} :
    ∀ {ds : List Definition}, ds ∈ net.lists → (leaves net n ds).Nodup := by
  induction n with
  | zero =>
    intro ds _
    exact nodup_nil
  | succ n ih =>
    intro ds hds
    rw [leaves]
    refine nodup_flatMap.mpr ⟨?_, ?_⟩
    · intro d _
      cases hsub : d.isSub with
      | false =>
        rw [leavesOf_component hsub]
        exact nodup_singleton _
      | true =>
        cases hs : net.getSubcircuit d with
        | none => simp [leavesOf, hsub, hs]
        | some s =>
          have hlist : s.sub ∈ net.lists :=
            mem_cons_of_mem _ (mem_map.mpr ⟨s, getSubcircuit_mem hs, rfl⟩)
          rw [leavesOf_sub hsub hs]
          refine (ih hlist).map ?_
          rintro ⟨c, e⟩ ⟨c', e'⟩ heq
          simpa using heq
    · have hnd : ds.reverse.Nodup := nodup_reverse.mpr (h.unique ds hds).of_map
      refine hnd.imp ?_
      intro d d' hne l hl hl'
      rcases mem_leavesOf.mp hl with ⟨rfl, -⟩ | ⟨-, s, -, c, -, e⟩
      · rcases mem_leavesOf.mp hl' with ⟨e', -⟩ | ⟨-, s', -, c', -, e'⟩
        · exact hne (Prod.mk.inj e').2
        · simp at e'
      · rcases mem_leavesOf.mp hl' with ⟨e', -⟩ | ⟨-, s', -, c', -, e'⟩
        · rw [e'] at e
          simp at e
        · have last := append_inj_right' (e.symm.trans e') rfl
          exact hne (congrArg Frame.inst (singleton_inj.mp last))

/-- Different leaves have different copies: type and instance name differ. -/
theorem Netlist.WellFormed.copyIn_injective {c c' : Scope} {e e' : Definition} (hl : LeafAt net c e)
    (hl' : LeafAt net c' e') (heq : copyIn [] c e = copyIn [] c' e') : c = c' ∧ e = e' := by
  obtain ⟨ds, hc, he, -⟩ := hl
  obtain ⟨ds', hc', he', -⟩ := hl'
  have hdot := h.noDot_instance ds hc.mem_lists e he
  have hdot' := h.noDot_instance ds' hc'.mem_lists e' he'
  have inScope : c = c' → e.type = e'.type → e.instanceName = e'.instanceName → e = e' := by
    rintro rfl ht hi
    cases hc.elements hc'
    exact inj_on_of_nodup_map (h.unique ds hc.mem_lists) he he' (by rw [ht, hi])
  cases c with
  | nil =>
    cases c' with
    | nil =>
      obtain ⟨ht, hi, -⟩ := Copy.mk.inj heq
      exact ⟨rfl, inScope rfl ht hi⟩
    | cons f' c' =>
      obtain ⟨-, hi, -⟩ := Copy.mk.inj heq
      exact absurd (hi ▸ hdot) (not_noDot_subcircuitNode _ _ _ _)
  | cons f c =>
    cases c' with
    | nil =>
      obtain ⟨-, hi, -⟩ := Copy.mk.inj heq
      exact absurd (hi ▸ hdot') (not_noDot_subcircuitNode _ _ _ _)
    | cons f' c' =>
      obtain ⟨ht, hi, -⟩ := Copy.mk.inj heq
      rw [append_nil, append_nil] at hi
      obtain ⟨hscope, hi⟩ := h.subcircuitNode_injective hc hc' hdot hdot' hi
      exact ⟨hscope, inScope hscope ht hi⟩

end WellFormed

/-! ## The flat netlist -/

def Copy.nodeName (x : Copy) (i : ℕ) : Option String := (x.nodes[i]?).bind Node.node

theorem copyIn_nodeName {e : Definition} {i : ℕ}
    (hi : e.nodes[i]? = some n) : (copyIn [] c e).nodeName i = some (flatName c n) := by
  cases c with
  | nil => simp [Copy.nodeName, copyIn, hi, flatName]
  | cons f c => simp [Copy.nodeName, copyIn, hi, climb_root]

/-- `flat` is the hierarchy of `net`, flattened: `copyOf` gives the flat element
of every leaf, one for one, and terminals have the same name iff their
nets are connected. -/
structure Flattens (net : Netlist) (flat : List Copy) (copyOf : Scope → Definition → Copy)
    (connected : Scope × String → Scope × String → Prop) : Prop where
  nodup : flat.Nodup
  leaf : ∀ x, x ∈ flat ↔ ∃ c e, LeafAt net c e ∧ copyOf c e = x
  once : ∀ c e c' e', LeafAt net c e → LeafAt net c' e' → copyOf c e = copyOf c' e' →
    c = c' ∧ e = e'
  shape : ∀ c e, LeafAt net c e →
    (copyOf c e).type = e.type ∧ (copyOf c e).nodes.length = e.nodes.length
  named : ∀ c e i, LeafAt net c e → i < e.nodes.length → ((copyOf c e).nodeName i).isSome
  names : ∀ c e c' e' i j n m, LeafAt net c e → LeafAt net c' e' → e.nodes[i]? = some n →
    e'.nodes[j]? = some m →
    ((copyOf c e).nodeName i = (copyOf c' e').nodeName j ↔ connected (c, n) (c', m))

theorem Netlist.WellFormed.flattens (h : net.WellFormed) {flat : List Copy}
    (hperm : flat.Perm ((leaves net (net.subcircuits.length + 2) net.root).map fun l =>
      copyIn [] l.1 l.2)) : Flattens net flat (copyIn []) (Tied net) := by
  have isLeaf : ∀ l ∈ leaves net (net.subcircuits.length + 2) net.root, LeafAt net l.1 l.2 := by
    intro l hl
    have := leafAt_of_mem_leaves .root hl
    rwa [append_nil] at this
  refine ⟨?_, ?_, ?_, ?_, ?_, ?_⟩
  · refine hperm.nodup_iff.mpr ((h.leaves_nodup mem_cons_self).map_on ?_)
    rintro ⟨c, e⟩ hl ⟨c', e'⟩ hl' heq
    obtain ⟨rfl, rfl⟩ := h.copyIn_injective (isLeaf _ hl) (isLeaf _ hl') heq
    rfl
  · intro x
    rw [hperm.mem_iff, mem_map]
    constructor
    · rintro ⟨l, hl, rfl⟩
      exact ⟨l.1, l.2, isLeaf l hl, rfl⟩
    · rintro ⟨c, e, hl, rfl⟩
      have depth := h.toResolved.leaf_depth hl
      exact ⟨(c, e), hl.mem_leaves (by omega), rfl⟩
  · intro c e c' e' hl hl' heq
    exact h.copyIn_injective hl hl' heq
  · intro c e _
    cases c with
    | nil => exact ⟨rfl, by simp [copyIn]⟩
    | cons f c => exact ⟨rfl, by simp [copyIn]⟩
  · intro c e i _ hi
    rw [copyIn_nodeName (getElem?_eq_getElem hi)]
    rfl
  · intro c e c' e' i j n m hl hl' hn hm
    obtain ⟨ds, hc, he, -⟩ := hl
    obtain ⟨ds', hc', he', -⟩ := hl'
    have hdot := h.noDot_node ds hc.mem_lists e he n (mem_of_getElem? hn)
    have hdot' := h.noDot_node ds' hc'.mem_lists e' he' m (mem_of_getElem? hm)
    rw [copyIn_nodeName hn, copyIn_nodeName hm, Option.some.injEq]
    exact h.flatName_eq_iff hc hc' hdot hdot'

/-- **Flattening preserves connectivity.**  For every well-formed netlist the
expansion ends; every leaf component of the hierarchy has exactly one flat
element; and two leaf terminals carry the same name iff their nets
are tied, which with proper formals is to say electrically joined. -/
theorem expandSubcircuits_connectivity {net : Netlist} (h : net.WellFormed) :
    ∃ (flat : List Copy) (copyOf : Scope → Definition → Copy),
      (∀ fuel, net.subcircuits.length < fuel → expandSubcircuits net fuel = some flat) ∧
      Flattens net flat copyOf (Tied net) ∧
      (ProperFormals net → Flattens net flat copyOf (Joined net)) := by
  obtain ⟨flat, hflat, hperm⟩ := h.toResolved.expand_leaves
  have flattens := h.flattens hperm
  refine ⟨flat, copyIn [], hflat, flattens, ?_⟩
  intro hp
  refine { flattens with names := ?_ }
  intro c e c' e' i j n m hl hl' hn hm
  rw [hp.joined_iff_tied]
  exact flattens.names c e c' e' i j n m hl hl' hn hm

/-- The checker's test: the type of every instance is there and has as many
nodes as the instance. -/
theorem defined_of_counts (h : ∀ ds ∈ net.lists, ∀ d ∈ ds, d.isSub →
      ((net.getSubcircuit d).map fun s => s.nodes.length) = some d.nodes.length) :
    ∀ ds ∈ net.lists, ∀ d ∈ ds, d.isSub →
      ∃ s, net.getSubcircuit d = some s ∧ d.nodes.length = s.nodes.length := by
  intro ds hds d hd hsub
  obtain ⟨s, hs, hlen⟩ := Option.map_eq_some_iff.mp (h ds hds d hd hsub)
  exact ⟨s, hs, hlen.symm⟩

/-- A load type used inside another type, with an instance of both levels on
the way to the ground. -/
def twoLevels : Netlist where
  root := [component "V" "V1" ["n1", "gnd"], subInstance "X1" ["n1", "n2"] "A",
    component "R" "R2" ["n2", "gnd"]]
  subcircuits := [⟨"B", ["a", "b"], [component "R" "R1" ["a", "m"], component "C" "C1" ["m", "b"]]⟩,
    ⟨"A", ["p", "q"], [subInstance "X1" ["p", "t"] "B", component "L" "L1" ["t", "q"]]⟩]

theorem expandSubcircuits_connectivity_twoLevels :
    ∃ (flat : List Copy) (copyOf : Scope → Definition → Copy),
      (∀ fuel, 2 < fuel → expandSubcircuits twoLevels fuel = some flat) ∧
      Flattens twoLevels flat copyOf (Joined twoLevels) := by
  have wf : twoLevels.WellFormed := by
    refine ⟨⟨acyclic_of_rank (fun n => if n = "A" then 1 else 0) (by decide), ?_⟩, by decide,
      by decide, by decide, by decide⟩
    exact defined_of_counts (by decide)
  have proper : ProperFormals twoLevels := by
    unfold ProperFormals
    decide
  obtain ⟨flat, copyOf, hflat, -, joined⟩ := expandSubcircuits_connectivity wf
  exact ⟨flat, copyOf, hflat, joined proper⟩

/-- A type whose formals repeat: `.Def:S a a`. -/
def repeatedFormal : Netlist where
  root := [{ component "DC" "DC1" [] with action := true }, component "R" "R0" ["x", "gnd"],
    subInstance "X1" ["x", "y"] "S", component "R" "R2" ["y", "gnd"]]
  subcircuits := [⟨"S", ["a", "a"], [component "R" "R1" ["a", "gnd"]]⟩]

/-- The two root components are joined through the formal, which is bound to
both `x` and `y`; yet their terminals keep different names. -/
theorem expandSubcircuits_repeatedFormal :
    repeatedFormal.WellFormed ∧
    LeafAt repeatedFormal [] (component "R" "R0" ["x", "gnd"]) ∧
    LeafAt repeatedFormal [] (component "R" "R2" ["y", "gnd"]) ∧
    Joined repeatedFormal ([], "x") ([], "y") ∧
    expandSubcircuits repeatedFormal 2 = some
      [⟨"R", "S.X1.R1", [⟨some "y", 2⟩, ⟨some "gnd", 0⟩]⟩, ⟨"DC", "DC1", []⟩,
        ⟨"R", "R0", [⟨some "x", 0⟩, ⟨some "gnd", 0⟩]⟩,
        ⟨"R", "R2", [⟨some "y", 0⟩, ⟨some "gnd", 0⟩]⟩] := by
  have scope : InScope repeatedFormal [⟨⟨"S", ["a", "a"], [component "R" "R1" ["a", "gnd"]]⟩,
      subInstance "X1" ["x", "y"] "S"⟩] [component "R" "R1" ["a", "gnd"]] :=
    .enter .root (by decide) (by decide) (by decide)
  refine ⟨?_, ⟨_, .root, by decide, by decide⟩, ⟨_, .root, by decide, by decide⟩, ?_, by decide⟩
  · refine ⟨⟨acyclic_of_rank (fun _ => 0) (by decide), ?_⟩, by decide, by decide, by decide,
      by decide⟩
    exact defined_of_counts (by decide)
  · exact .trans _ _ _ (.symm _ _ (.rel _ _ (Tie.bind (k := 0) scope rfl rfl)))
      (.rel _ _ (Tie.bind (k := 1) scope rfl rfl))

end Qucs.Hierarchy
