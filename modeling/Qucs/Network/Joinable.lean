/-
# A join takes one internal node

What holds of the net through all joins of all frequency points (`Joinable`):
every name but the ports' ground is on two nodes, and a port shares its name with
a node of another circuit. A join takes one name away and moves the other nodes
to its result (`moved`).

* Joinable.countNodes_eq: two nodes for every internal node, one for every port
* Joins.joinable: a join keeps the net joinable
* Joins.internalNodes: and takes one internal node
-/
import Qucs.Network.Degree
import Qucs.Network.Reduce
import Mathlib.Algebra.BigOperators.Group.Finset.Basic

namespace Qucs.Network

open Net List

/-! ## Nets that can be joined -/

structure Joinable (net : Net) : Prop where
  nodup : net.root.Nodup
  size : ∀ p ∈ net.root, (net.circuit p).port ≠ 0 → (net.circuit p).size = 2
  paired : ∀ t ∈ net.terminals, net.name t ≠ "PacGround" → Paired net (net.name t)
  signal : ∀ p ∈ net.root, (net.circuit p).port ≠ 0 →
    ∃ u, (net.circuit u.circuit).port = 0 ∧ Carried net (net.name ⟨p, 0⟩) [u, ⟨p, 0⟩]
  ground : ∀ p ∈ net.root, (net.circuit p).port ≠ 0 → net.name ⟨p, 1⟩ = "PacGround"
  pac : ∀ t ∈ net.terminals, net.name t = "PacGround" → (net.circuit t.circuit).port ≠ 0

theorem Grounded.joinable {start net : Net} (h : Grounded start net []) : Joinable net where
  nodup := h.fresh.nodup
  size := h.wired.size
  paired := by
    intro t ht hpac
    exact h.wired.paired t ht (fun hgnd => not_mem_nil (h.gnd t ht hgnd)) hpac
  signal := by
    intro p hp hport
    obtain ⟨c, k, hc, hL⟩ := (h.wired.signal p hp hport).paired
    refine ⟨⟨c, 0⟩, hc, ?_⟩
    rwa [((hL.mem ⟨p, 0⟩).mp (by simp)).2]
  ground := fun p hp hport => (h.wired.signal p hp hport).ground
  pac := h.wired.pac

section Joinable

variable {net net' : Net}

section

variable (hroot : ∀ d, d ∈ net'.root ↔ d ∈ net.root)
  (hcircuit : ∀ d ∈ net.root, net'.circuit d = net.circuit d)
include hroot hcircuit

theorem terminals_congr (t : Terminal) : t ∈ net'.terminals ↔ t ∈ net.terminals := by
  rw [net'.mem_terminals, net.mem_terminals, hroot]
  exact and_congr_right fun hc => by rw [hcircuit _ hc]

theorem Carried.of_same (hname : ∀ t, t.circuit ∈ net.root → net'.name t = net.name t)
    {x : String} {L : List Terminal} (h : Carried net x L) : Carried net' x L := by
  refine ⟨h.nodup, fun t => ?_⟩
  rw [h.mem, terminals_congr hroot hcircuit]
  exact and_congr_right fun ht => by rw [hname t (net.mem_terminals.mp ht).1]

end

theorem Joinable.of_same (h : Joinable net) (hnodup : net'.root.Nodup)
    (hroot : ∀ d, d ∈ net'.root ↔ d ∈ net.root)
    (hcircuit : ∀ d ∈ net.root, net'.circuit d = net.circuit d)
    (hname : ∀ t, t.circuit ∈ net.root → net'.name t = net.name t) : Joinable net' := by
  have hterm := terminals_congr hroot hcircuit
  have hmem : ∀ t ∈ net.terminals, t.circuit ∈ net.root := fun t ht => (net.mem_terminals.mp ht).1
  constructor
  case nodup => exact hnodup
  case size =>
    intro p hp
    rw [hroot] at hp
    rw [hcircuit p hp]
    exact h.size p hp
  case paired =>
    intro t ht
    rw [hterm] at ht
    rw [hname t (hmem t ht)]
    intro hpac
    obtain ⟨a, b, hab⟩ := h.paired t ht hpac
    exact ⟨a, b, hab.of_same hroot hcircuit hname⟩
  case signal =>
    intro p hp
    rw [hroot] at hp
    rw [hcircuit p hp, hname ⟨p, 0⟩ hp]
    intro hport
    obtain ⟨u, hu, hL⟩ := h.signal p hp hport
    have huroot := hmem u ((hL.mem u).mp mem_cons_self).1
    exact ⟨u, by rw [hcircuit _ huroot, hu], hL.of_same hroot hcircuit hname⟩
  case ground =>
    intro p hp
    rw [hroot] at hp
    rw [hcircuit p hp, hname ⟨p, 1⟩ hp]
    exact h.ground p hp
  case pac =>
    intro t ht
    rw [hterm] at ht
    rw [hname t (hmem t ht), hcircuit _ (hmem t ht)]
    exact h.pac t ht

/-- A node of a port is its first, with a name of its own, or its second. -/
theorem Joinable.port_cases (h : Joinable net) {t : Terminal} (ht : t ∈ net.terminals)
    (hport : (net.circuit t.circuit).port ≠ 0) : t.index = 0 ∨ net.name t = "PacGround" := by
  obtain ⟨p, i⟩ := t
  obtain ⟨hp, hi⟩ := net.mem_terminals.mp ht
  rw [h.size p hp hport] at hi
  match i, hi with
  | 0, _ => exact .inl rfl
  | 1, _ => exact .inr (h.ground p hp hport)

end Joinable

/-! ## Internal nodes -/

namespace Net

def internalNodes (net : Net) : List String :=
  (net.terminals.map net.name).dedup.filter fun x =>
    ∀ t ∈ net.terminals, net.name t = x → (net.circuit t.circuit).port = 0

theorem mem_internalNodes (net : Net) {x : String} : x ∈ net.internalNodes ↔
    (∃ t ∈ net.terminals, net.name t = x) ∧
      ∀ t ∈ net.terminals, net.name t = x → (net.circuit t.circuit).port = 0 := by
  simp [internalNodes]

theorem nodup_internalNodes (net : Net) : net.internalNodes.Nodup := (nodup_dedup _).filter _

end Net

/-! ### Counting them -/

section Counting

variable {net : Net}

theorem countP_terminals (net : Net) (p : Terminal → Bool) :
    net.terminals.countP p = (net.root.map fun c => (net.terminalsOf c).countP p).sum := by
  rw [terminals, countP_flatMap]
  rfl

/-- The nodes that `countNodes` counts are those of circuits that are no ports. -/
theorem countNodes_eq_countP (net : Net) :
    net.countNodes = net.terminals.countP fun t => (net.circuit t.circuit).port = 0 := by
  have hc : ∀ c, (net.terminalsOf c).countP (fun t => (net.circuit t.circuit).port = 0) =
      if (net.circuit c).port = 0 then (net.circuit c).size else 0 := by
    intro c
    rw [terminalsOf, countP_map]
    split
    case isTrue hport => simp [Function.comp_def, hport]
    case isFalse hport => simp [Function.comp_def, hport]
  simp only [countP_terminals, countNodes, hc, sum_map_ite]
  simp

theorem countPorts_eq_countP (h : Joinable net) : net.countPorts =
    net.terminals.countP fun t => (net.circuit t.circuit).port ≠ 0 ∧ t.index = 0 := by
  have hc : ∀ c ∈ net.root, (net.terminalsOf c).countP
      (fun t => (net.circuit t.circuit).port ≠ 0 ∧ t.index = 0) =
      if (net.circuit c).port ≠ 0 then 1 else 0 := by
    intro c hc
    rw [terminalsOf, countP_map]
    split
    case isTrue hport =>
      rw [h.size c hc hport]
      simp [Function.comp_def, hport, range_succ]
    case isFalse hport => simp [Function.comp_def, not_not.mp hport]
  rw [countP_terminals, countPorts, map_congr_left hc, sum_map_ite]
  simp [countP_eq_length_filter]

/-- At each name there are two nodes of circuits that are no ports, or one and
that of a port, or only nodes of ports' ground. -/
theorem Joinable.countP_name (h : Joinable net) {x : String}
    (hx : ∃ t ∈ net.terminals, net.name t = x) :
    (net.carriers x).countP (fun t => (net.circuit t.circuit).port = 0) =
      2 * (if x ∈ net.internalNodes then 1 else 0) +
        (net.carriers x).countP fun t => (net.circuit t.circuit).port ≠ 0 ∧ t.index = 0 := by
  obtain ⟨t, ht, rfl⟩ := hx
  by_cases hpac : net.name t = "PacGround"
  · have hnot := fun hmem => h.pac t ht hpac ((net.mem_internalNodes.mp hmem).2 t ht rfl)
    have hports : ∀ u ∈ net.carriers (net.name t),
        (net.circuit u.circuit).port ≠ 0 ∧ u.index ≠ 0 := by
      intro u hu
      obtain ⟨hu, hname⟩ := net.mem_carriers.mp hu
      have hport := h.pac u hu (hname.trans hpac)
      refine ⟨hport, fun hzero => ?_⟩
      obtain ⟨p, i⟩ := u
      obtain rfl := hzero
      obtain ⟨v, hv, hL⟩ := h.signal p (net.mem_terminals.mp hu).1 hport
      obtain ⟨hvmem, hvname⟩ := (hL.mem v).mp mem_cons_self
      exact h.pac v hvmem (hvname.trans (hname.trans hpac)) hv
    rw [if_neg hnot, countP_eq_zero.mpr, countP_eq_zero.mpr]
    · intro u hu
      simpa using fun _ => (hports u hu).2
    · intro u hu
      simpa using (hports u hu).1
  by_cases hint : net.name t ∈ net.internalNodes
  · obtain ⟨a, b, hab⟩ := h.paired t ht hpac
    have hzero := (net.mem_internalNodes.mp hint).2
    obtain ⟨ha, hxa⟩ := (hab.mem a).mp (by simp)
    obtain ⟨hb, hxb⟩ := (hab.mem b).mp (by simp)
    rw [if_pos hint, (hab.perm h.nodup).countP_eq, (hab.perm h.nodup).countP_eq]
    simp [hzero a ha hxa, hzero b hb hxb]
  · have hport : ∃ u ∈ net.terminals, net.name u = net.name t ∧
        (net.circuit u.circuit).port ≠ 0 := by
      by_contra hnone
      refine hint (net.mem_internalNodes.mpr ⟨⟨t, ht, rfl⟩, fun u hu hname => ?_⟩)
      exact not_not.mp fun hport => hnone ⟨u, hu, hname, hport⟩
    obtain ⟨⟨p, i⟩, hu, hname, hport⟩ := hport
    obtain rfl := (h.port_cases hu hport).resolve_right fun hp => hpac (hname.symm.trans hp)
    obtain ⟨v, hv, hL⟩ := h.signal p (net.mem_terminals.mp hu).1 hport
    rw [hname] at hL
    rw [if_neg hint, (hL.perm h.nodup).countP_eq, (hL.perm h.nodup).countP_eq]
    simp [hv, hport]

theorem countP_of_names (f : Terminal → String) (p p' : Terminal → Bool) (q : String → Prop)
    [DecidablePred q] : ∀ (names : List String) (nodes : List Terminal), names.Nodup →
      (∀ t ∈ nodes, f t ∈ names) → (∀ x ∈ names, (nodes.filter fun t => f t = x).countP p =
        2 * (if q x then 1 else 0) + (nodes.filter fun t => f t = x).countP p') →
      nodes.countP p = 2 * names.countP q + nodes.countP p'
  | [], nodes, _, hmem, _ => by
    rw [eq_nil_iff_forall_not_mem.mpr fun t ht => not_mem_nil (hmem t ht)]
    rfl
  | x :: names, nodes, hnodup, hmem, h => by
    obtain ⟨hx, hnodup⟩ := nodup_cons.mp hnodup
    have hrest := countP_of_names f p p' q names (nodes.filter fun t => ¬f t = x) hnodup
      (fun t ht => by
        obtain ⟨ht, hne⟩ := mem_filter.mp ht
        exact (mem_cons.mp (hmem t ht)).resolve_left (by simpa using hne))
      fun y hy => by
        have hsame : (nodes.filter fun t => ¬f t = x).filter (fun t => f t = y) =
            nodes.filter fun t => f t = y := by
          refine filter_filter.trans (filter_congr fun t _ => ?_)
          have hyx : y ≠ x := fun heq => hx (heq ▸ hy)
          by_cases hty : f t = y <;> simp [hty, hyx]
        rw [hsame]
        exact h y (mem_cons_of_mem _ hy)
    have hfirst := h x mem_cons_self
    have hsplit := fun p => countP_eq_countP_filter_add nodes p fun t => f t = x
    simp only [decide_not] at hrest
    rw [hsplit p, hsplit p', countP_cons]
    simp only [decide_eq_true_eq]
    omega

/-- **The count of the loop**: two nodes for every internal node, one for every
port. -/
theorem Joinable.countNodes_eq (h : Joinable net) :
    net.countNodes = 2 * net.internalNodes.length + net.countPorts := by
  let names := (net.terminals.map net.name).dedup
  have hmem : ∀ t ∈ net.terminals, net.name t ∈ names := fun t ht =>
    mem_dedup.mpr (mem_map_of_mem ht)
  have hinternal : net.internalNodes.length = names.countP (· ∈ net.internalNodes) := by
    rw [internalNodes, ← countP_eq_length_filter]
    refine countP_congr fun x hx => ?_
    rw [decide_eq_true_eq (p := x ∈ _), mem_filter, and_iff_right hx]
  rw [countNodes_eq_countP, countPorts_eq_countP h, hinternal]
  refine countP_of_names net.name _ _ _ names net.terminals (nodup_dedup _) hmem fun x hx => ?_
  obtain ⟨t, ht, hname⟩ := mem_map.mp (mem_dedup.mp hx)
  exact h.countP_name ⟨t, ht, hname⟩

end Counting

/-! ## A join -/

section Join

variable {net net' : Net} {n1 n2 : Terminal} {x : String}

/-- Where a node of the net is after the join. -/
def moved (net : Net) (n1 n2 t : Terminal) : Terminal :=
  if t ∈ keptNodes net n1 n2 then ⟨.reduced net.reduced, (keptNodes net n1 n2).idxOf t⟩ else t

/-- What is joined: the two nodes of an internal name, in a net without the
circuit to come. -/
structure Candidates (net : Net) (n1 n2 : Terminal) (x : String) : Prop where
  carried : Carried net x [n1, n2]
  port1 : (net.circuit n1.circuit).port = 0
  port2 : (net.circuit n2.circuit).port = 0
  new : .reduced net.reduced ∉ net.root

section

variable (h : Candidates net n1 n2 x)
include h

theorem Candidates.mem1 : n1 ∈ net.terminals ∧ net.name n1 = x := (h.carried.mem n1).mp (by simp)

theorem Candidates.mem2 : n2 ∈ net.terminals ∧ net.name n2 = x := (h.carried.mem n2).mp (by simp)

theorem Candidates.ne_of_name {t : Terminal} (ht : net.name t ≠ x) : t ≠ n1 ∧ t ≠ n2 := by
  constructor
  · rintro rfl
    exact ht h.mem1.2
  · rintro rfl
    exact ht h.mem2.2

theorem Candidates.mem_kept {t : Terminal} :
    t ∈ keptNodes net n1 n2 ↔ t ∈ net.terminals ∧
      (t.circuit = n1.circuit ∨ t.circuit = n2.circuit) ∧ t ≠ n1 ∧ t ≠ n2 := by
  have h1 := (net.mem_terminals.mp h.mem1.1).1
  have h2 := (net.mem_terminals.mp h.mem2.1).1
  rw [mem_keptNodes, ← and_assoc (a := t ∈ net.terminals)]
  refine and_congr_left fun _ => ?_
  rw [net.mem_terminalsOf, net.mem_terminalsOf, net.mem_terminals]
  constructor
  · rintro (⟨hc, hi⟩ | ⟨hc, hi⟩)
    · rw [hc]
      exact ⟨⟨h1, hi⟩, .inl rfl⟩
    · rw [hc]
      exact ⟨⟨h2, hi⟩, .inr rfl⟩
  · rintro ⟨⟨-, hi⟩, hc | hc⟩
    · exact .inl ⟨hc, hc ▸ hi⟩
    · exact .inr ⟨hc, hc ▸ hi⟩

theorem Candidates.not_reduced {t : Terminal} (ht : t ∈ net.terminals) :
    t.circuit ≠ .reduced net.reduced :=
  fun heq => h.new (heq ▸ (net.mem_terminals.mp ht).1)

end

section

variable (hj : Joins net net' n1 n2) (h : Candidates net n1 n2 x)
include hj h

/-- The nodes after the join are those before it, but for the two joined. -/
theorem Joins.cases {t : Terminal} :
    t ∈ net'.terminals ↔ ∃ u ∈ net.terminals, u ≠ n1 ∧ u ≠ n2 ∧ t = moved net n1 n2 u := by
  constructor
  · intro ht
    obtain ⟨hc, hi⟩ := net'.mem_terminals.mp ht
    rcases (hj.mem _).mp hc with heq | ⟨hroot, hc1, hc2⟩
    · obtain ⟨c, i⟩ := t
      obtain rfl := heq
      have hlt : i < (keptNodes net n1 n2).length := by rwa [hj.result] at hi
      have hu := h.mem_kept.mp (getElem_mem hlt)
      refine ⟨(keptNodes net n1 n2)[i], hu.1, hu.2.2.1, hu.2.2.2, ?_⟩
      rw [moved, if_pos (getElem_mem hlt), nodup_keptNodes.idxOf_getElem]
    · have hne : t.circuit ≠ .reduced net.reduced := fun heq => h.new (heq ▸ hroot)
      rw [hj.circuit _ hne] at hi
      have hnot : t ∉ keptNodes net n1 n2 := fun hmem =>
        (h.mem_kept.mp hmem).2.1.elim hc1 hc2
      refine ⟨t, net.mem_terminals.mpr ⟨hroot, hi⟩, ?_, ?_, (if_neg hnot).symm⟩
      · rintro rfl
        exact hc1 rfl
      · rintro rfl
        exact hc2 rfl
  · rintro ⟨u, hu, hu1, hu2, rfl⟩
    rw [net'.mem_terminals, moved]
    split
    case isTrue hkept =>
      refine ⟨(hj.mem _).mpr (.inl rfl), ?_⟩
      rw [hj.result]
      exact idxOf_lt_length_of_mem hkept
    case isFalse hnot =>
      obtain ⟨hroot, hi⟩ := net.mem_terminals.mp hu
      have hc := fun hc => hnot (h.mem_kept.mpr ⟨hu, hc, hu1, hu2⟩)
      rw [hj.circuit _ (h.not_reduced hu)]
      exact ⟨(hj.mem _).mpr (.inr ⟨hroot, not_or.mp hc⟩), hi⟩

theorem Joins.name_moved {u : Terminal} (hu : u ∈ net.terminals) :
    net'.name (moved net n1 n2 u) = net.name u := by
  rw [moved]
  split
  case isTrue hkept =>
    have hlt := idxOf_lt_length_of_mem hkept
    rw [hj.names _ _ (getElem?_eq_getElem hlt), getElem_idxOf hlt]
  case isFalse => exact hj.name u (h.not_reduced hu)

theorem Joins.port_moved {u : Terminal} (hu : u ∈ net.terminals) :
    (net'.circuit (moved net n1 n2 u).circuit).port = (net.circuit u.circuit).port := by
  rw [moved]
  split
  case isTrue hkept =>
    rw [hj.result]
    rcases (h.mem_kept.mp hkept).2.1 with hc | hc
    · rw [hc, h.port1]
      rfl
    · rw [hc, h.port2]
      rfl
  case isFalse => rw [hj.circuit _ (h.not_reduced hu)]

end

theorem moved_injOn (h : Candidates net n1 n2 x) {u v : Terminal} (hu : u ∈ net.terminals)
    (hv : v ∈ net.terminals) (heq : moved net n1 n2 u = moved net n1 n2 v) : u = v := by
  simp only [moved] at heq
  split at heq
  case isTrue hku =>
    split at heq
    case isTrue hkv => exact (idxOf_inj hku).mp (congrArg Terminal.index heq)
    case isFalse => exact absurd (congrArg Terminal.circuit heq).symm (h.not_reduced hv)
  case isFalse =>
    split at heq
    case isTrue => exact absurd (congrArg Terminal.circuit heq) (h.not_reduced hu)
    case isFalse => exact heq

theorem Joins.carried (hj : Joins net net' n1 n2) (h : Candidates net n1 n2 x) {y : String}
    {L : List Terminal} (hy : y ≠ x) (hL : Carried net y L) :
    Carried net' y (L.map (moved net n1 n2)) := by
  have hterm : ∀ u ∈ L, u ∈ net.terminals := fun u hu => ((hL.mem u).mp hu).1
  constructor
  · exact hL.nodup.map_on fun u hu v hv => moved_injOn h (hterm u hu) (hterm v hv)
  · intro t
    rw [mem_map, hj.cases h]
    constructor
    · rintro ⟨u, hu, rfl⟩
      obtain ⟨hu, rfl⟩ := (hL.mem u).mp hu
      obtain ⟨hu1, hu2⟩ := h.ne_of_name hy
      exact ⟨⟨u, hu, hu1, hu2, rfl⟩, hj.name_moved h hu⟩
    · rintro ⟨⟨u, hu, -, -, rfl⟩, hname⟩
      rw [hj.name_moved h hu] at hname
      exact ⟨u, (hL.mem u).mpr ⟨hu, hname⟩, rfl⟩

theorem Candidates.name_ne (h : Candidates net n1 n2 x) {t : Terminal} (ht : t ∈ net.terminals)
    (h1 : t ≠ n1) (h2 : t ≠ n2) : net.name t ≠ x := fun hname => by
  have := (h.carried.mem t).mpr ⟨ht, hname⟩
  simp [h1, h2] at this

theorem Joins.joinable (hj : Joins net net' n1 n2) (h : Candidates net n1 n2 x)
    (hnet : Joinable net) : Joinable net' := by
  have hport : ∀ p ∈ net'.root, (net'.circuit p).port ≠ 0 →
      p ∈ net.root ∧ (net.circuit p).port ≠ 0 ∧ p ≠ .reduced net.reduced := by
    intro p hp hp0
    rcases (hj.mem p).mp hp with rfl | ⟨hroot, -⟩
    · rw [hj.result] at hp0
      exact absurd rfl hp0
    · have hne : p ≠ .reduced net.reduced := fun heq => h.new (heq ▸ hroot)
      exact ⟨hroot, hj.circuit p hne ▸ hp0, hne⟩
  constructor
  case nodup => exact hj.nodup
  case size =>
    intro p hp hp0
    obtain ⟨hroot, hp0, hne⟩ := hport p hp hp0
    rw [hj.circuit p hne]
    exact hnet.size p hroot hp0
  case paired =>
    intro t ht hpac
    obtain ⟨u, hu, hu1, hu2, rfl⟩ := (hj.cases h).mp ht
    rw [hj.name_moved h hu] at hpac ⊢
    obtain ⟨a, b, hab⟩ := hnet.paired u hu hpac
    exact ⟨_, _, hj.carried h (h.name_ne hu hu1 hu2) hab⟩
  case signal =>
    intro p hp hp0
    obtain ⟨hroot, hp0, hne⟩ := hport p hp hp0
    obtain ⟨u, hu, hL⟩ := hnet.signal p hroot hp0
    have hp1 : p ≠ n1.circuit := fun heq => hp0 (heq ▸ h.port1)
    have hp2 : p ≠ n2.circuit := fun heq => hp0 (heq ▸ h.port2)
    have humem := ((hL.mem u).mp (by simp)).1
    have hpmem := ((hL.mem ⟨p, 0⟩).mp (by simp)).1
    have hname := h.name_ne hpmem
      (fun heq => hp1 (congrArg Terminal.circuit heq))
      fun heq => hp2 (congrArg Terminal.circuit heq)
    have hstay : moved net n1 n2 ⟨p, 0⟩ = ⟨p, 0⟩ :=
      if_neg fun hmem => (h.mem_kept.mp hmem).2.1.elim hp1 hp2
    refine ⟨moved net n1 n2 u, by rw [hj.port_moved h humem, hu], ?_⟩
    have hL' := hj.carried h hname hL
    rw [map_cons, map_singleton, hstay] at hL'
    rwa [hj.name _ hne]
  case ground =>
    intro p hp hp0
    obtain ⟨hroot, hp0, hne⟩ := hport p hp hp0
    rw [hj.name _ hne]
    exact hnet.ground p hroot hp0
  case pac =>
    intro t ht hname
    obtain ⟨u, hu, -, -, rfl⟩ := (hj.cases h).mp ht
    rw [hj.name_moved h hu] at hname
    rw [hj.port_moved h hu]
    exact hnet.pac u hu hname

/-- **One internal node less**. -/
theorem Joins.internalNodes (hj : Joins net net' n1 n2) (h : Candidates net n1 n2 x) :
    net.internalNodes.length = net'.internalNodes.length + 1 := by
  have hx : x ∉ net'.internalNodes := by
    intro hmem
    obtain ⟨⟨t, ht, hname⟩, -⟩ := net'.mem_internalNodes.mp hmem
    obtain ⟨u, hu, hu1, hu2, rfl⟩ := (hj.cases h).mp ht
    rw [hj.name_moved h hu] at hname
    exact h.name_ne hu hu1 hu2 hname
  have hperm : net.internalNodes.Perm (x :: net'.internalNodes) := by
    refine (perm_ext_iff_of_nodup net.nodup_internalNodes
      (nodup_cons.mpr ⟨hx, net'.nodup_internalNodes⟩)).mpr fun y => ?_
    rw [mem_cons, net.mem_internalNodes, net'.mem_internalNodes]
    by_cases hyx : y = x
    · refine iff_of_true ⟨⟨n1, h.mem1.1, h.mem1.2.trans hyx.symm⟩, fun t ht hname => ?_⟩ (.inl hyx)
      have := (h.carried.mem t).mpr ⟨ht, hname.trans hyx⟩
      rcases mem_pair.mp this with rfl | rfl
      · exact h.port1
      · exact h.port2
    · rw [or_iff_right hyx]
      constructor
      · rintro ⟨⟨t, ht, rfl⟩, hports⟩
        obtain ⟨ht1, ht2⟩ := h.ne_of_name hyx
        refine ⟨⟨moved net n1 n2 t, (hj.cases h).mpr ⟨t, ht, ht1, ht2, rfl⟩,
          hj.name_moved h ht⟩, fun t' ht' hname' => ?_⟩
        obtain ⟨u, hu, -, -, rfl⟩ := (hj.cases h).mp ht'
        rw [hj.port_moved h hu]
        exact hports u hu ((hj.name_moved h hu).symm.trans hname')
      · rintro ⟨⟨t, ht, hname⟩, hports⟩
        obtain ⟨u, hu, -, -, rfl⟩ := (hj.cases h).mp ht
        refine ⟨⟨u, hu, (hj.name_moved h hu).symm.trans hname⟩, fun v hv hv' => ?_⟩
        obtain ⟨hv1, hv2⟩ := h.ne_of_name (hv' ▸ hyx)
        rw [← hj.port_moved h hv]
        exact hports _ ((hj.cases h).mpr ⟨v, hv, hv1, hv2, rfl⟩) ((hj.name_moved h hv).trans hv')
  rw [hperm.length_eq, length_cons]

end Join

end Qucs.Network
