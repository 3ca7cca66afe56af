/-
# What a wiring keeps, operation by operation

A schematic is looked at with a set `W` of wires that count and a list of loose ends.

* `Drawn s W`: the ends of the wires of `W` are at the places of their nodes, no two
  nodes at one place, no two wires over each other
* `Linked s W loose`: the connections of each node are the ends there, those of the
  wires of `W`, of the components, and the loose ones
* `Clear s W`: no node inside a wire of `W`
* `Listed s W`: the list of wires is `W`

A wire that is being changed is taken out of `W` first, which leaves its two ends
loose (`Linked.take`); a connection that is added or removed is a loose end more or
less; and a wire is put into `W` again when its two ends are there (`Linked.put`,
`Drawn.put`).
-/
import Mathlib.Data.Finset.Basic
import Qucs.Schematic.Wiring

namespace Qucs.Wiring

open Lib.Segments List Sheet
open Function (update_of_ne)

namespace Sheet

def place (s : Sheet) (n : ℕ) : ℤ × ℤ := ((s.node n).cx, (s.node n).cy)

/-- How many ends of an element are at a node, if the wires are those of `W`. -/
def ends (s : Sheet) (W : Finset ℕ) : Element → ℕ → ℕ
  | .wire w, n =>
    if w ∈ W then
      (if (s.wire w).port1 = n then 1 else 0) + (if (s.wire w).port2 = n then 1 else 0)
    else 0
  | .component c, n => s.ports.count (c, n)

end Sheet

/-- The places of nodes and wires fit, if the wires are those of `W`. -/
structure Drawn (s : Sheet) (W : Finset ℕ) : Prop where
  nodup : s.nodes.Nodup
  node_lt : ∀ n ∈ s.nodes, n < s.fresh
  wire_lt : ∀ w ∈ W, w < s.fresh
  spot : ∀ m ∈ s.nodes, ∀ n ∈ s.nodes, s.place m = s.place n → m = n
  ordered : ∀ w ∈ W, (s.wire w).Ordered
  port_mem : ∀ w ∈ W, ∀ σ, (s.wire w).port σ ∈ s.nodes
  place_port : ∀ w ∈ W, ∀ σ, s.place ((s.wire w).port σ) = (s.wire w).endpoint σ
  component : ∀ p ∈ s.ports, p.2 ∈ s.nodes
  apart : ∀ v ∈ W, ∀ w ∈ W, v ≠ w → ¬(s.wire v).Overlap (s.wire w).toSegment

/-- The connections of every node are the ends there, those of the wires of `W`, of
the components, and the `open` ones of a wire on its way in or out. -/
def Linked (s : Sheet) (W : Finset ℕ) (loose : List (Element × ℕ)) : Prop :=
  ∀ n ∈ s.nodes, ∀ e, (s.node n).connections.count e = s.ends W e n + loose.count (e, n)

def Clear (s : Sheet) (W : Finset ℕ) : Prop :=
  ∀ w ∈ W, ∀ n ∈ s.nodes, ¬(s.wire w).Inside (s.place n)

def Listed (s : Sheet) (W : Finset ℕ) : Prop := s.wires.Nodup ∧ ∀ w, w ∈ s.wires ↔ w ∈ W

variable {s : Sheet} {W : Finset ℕ} {loose : List (Element × ℕ)} {w n m : ℕ} {e : Element}

/-! ## Connections -/

@[simp] theorem place_relink (f : List Element → List Element) :
    (s.relink n f).place m = s.place m := by
  unfold place relink
  by_cases hm : m = n
  · subst hm
    simp
  · simp [update_of_ne hm]

theorem connections_relink (f : List Element → List Element) :
    ((s.relink n f).node m).connections =
      if m = n then f (s.node n).connections else (s.node m).connections := by
  unfold relink
  split_ifs with hm
  · subst hm
    simp
  · simp [update_of_ne hm]

theorem Drawn.congr_wire {s' : Sheet} (h : Drawn s W) (hnodes : s'.nodes = s.nodes)
    (hplace : ∀ m, s'.place m = s.place m) (hports : s'.ports = s.ports)
    (hfresh : s.fresh ≤ s'.fresh) (hwire : ∀ w ∈ W, s'.wire w = s.wire w) : Drawn s' W where
  nodup := hnodes ▸ h.nodup
  node_lt := fun m hm => (h.node_lt m (hnodes ▸ hm)).trans_le hfresh
  wire_lt := fun w hw => (h.wire_lt w hw).trans_le hfresh
  spot := fun a ha b hb hab => h.spot a (hnodes ▸ ha) b (hnodes ▸ hb) (by
    rwa [hplace, hplace] at hab)
  ordered := fun w hw => by rw [hwire w hw]; exact h.ordered w hw
  port_mem := fun w hw σ => by rw [hwire w hw, hnodes]; exact h.port_mem w hw σ
  place_port := fun w hw σ => by rw [hwire w hw, hplace]; exact h.place_port w hw σ
  component := fun p hp => by rw [hnodes]; exact h.component p (hports ▸ hp)
  apart := fun v hv w hw => by rw [hwire v hv, hwire w hw]; exact h.apart v hv w hw

theorem Drawn.relink (h : Drawn s W) (f : List Element → List Element) :
    Drawn (s.relink n f) W :=
  h.congr_wire rfl (fun _ => place_relink f) rfl le_rfl fun _ _ => rfl

theorem Drawn.append (h : Drawn s W) : Drawn (s.append n e) W := h.relink _
theorem Drawn.prepend (h : Drawn s W) : Drawn (s.prepend n e) W := h.relink _
theorem Drawn.removeRef (h : Drawn s W) : Drawn (s.removeRef n e) W := h.relink _

theorem Clear.relink (h : Clear s W) (f : List Element → List Element) :
    Clear (s.relink n f) W := by
  intro w hw m hm
  rw [place_relink]
  exact h w hw m hm

theorem Linked.relink_add (h : Linked s W loose) {f : List Element → List Element}
    (hf : ∀ l e', (f l).count e' = l.count e' + if e' = e then 1 else 0) :
    Linked (s.relink n f) W ((e, n) :: loose) := by
  intro m hm e'
  have hcount := h m hm e'
  have hends : (s.relink n f).ends W e' m = s.ends W e' m := by cases e' <;> rfl
  rw [connections_relink, hends, count_cons]
  split_ifs with hmn he <;> grind

theorem Linked.append (h : Linked s W loose) : Linked (s.append n e) W ((e, n) :: loose) :=
  h.relink_add fun l e' => by grind

theorem Linked.prepend (h : Linked s W loose) : Linked (s.prepend n e) W ((e, n) :: loose) :=
  h.relink_add fun l e' => by grind

theorem Linked.removeRef (h : Linked s W ((e, n) :: loose)) : Linked (s.removeRef n e) W loose := by
  intro m hm e'
  have hcount := h m hm e'
  have hends : (s.removeRef n e).ends W e' m = s.ends W e' m := by cases e' <;> rfl
  unfold Sheet.removeRef at *
  rw [connections_relink, hends]
  rw [count_cons] at hcount
  split_ifs with hmn
  · subst hmn
    grind
  · grind

theorem Linked.congr {loose' : List (Element × ℕ)} (h : Linked s W loose)
    (hp : ∀ p, loose'.count p = loose.count p) : Linked s W loose' := fun m hm e' =>
  (h m hm e').trans (congrArg _ (hp _).symm)

/-! ## The lists of the schematic -/

theorem Drawn.appendWire (h : Drawn s W) : Drawn (s.appendWire w) W := { h with }
theorem Drawn.removeWire (h : Drawn s W) : Drawn (s.removeWire w) W := { h with }

theorem ends_appendWire : (s.appendWire w).ends W e n = s.ends W e n := by cases e <;> rfl
theorem ends_removeWire : (s.removeWire w).ends W e n = s.ends W e n := by cases e <;> rfl

theorem Linked.appendWire (h : Linked s W loose) : Linked (s.appendWire w) W loose :=
  fun m hm e' => (h m hm e').trans (by rw [ends_appendWire])

theorem Linked.removeWire (h : Linked s W loose) : Linked (s.removeWire w) W loose :=
  fun m hm e' => (h m hm e').trans (by rw [ends_removeWire])

theorem Listed.appendWire (h : Listed s W) (hw : w ∉ W) : Listed (s.appendWire w) (insert w W) := by
  have hlist : w ∉ s.wires := fun hmem => hw ((h.2 w).mp hmem)
  refine ⟨?_, fun v => ?_⟩
  · exact nodup_append.mpr ⟨h.1, nodup_singleton w, by grind⟩
  · simp only [Sheet.appendWire, mem_append, mem_singleton, Finset.mem_insert, h.2 v]
    exact or_comm

theorem Listed.removeWire (h : Listed s W) : Listed (s.removeWire w) (W.erase w) := by
  refine ⟨h.1.erase w, fun v => ?_⟩
  simp only [Sheet.removeWire, h.1.mem_erase_iff, Finset.mem_erase, h.2 v]

/-- A node goes that no wire and no component has. -/
theorem Drawn.removeNode (h : Drawn s W) (hwire : ∀ w ∈ W, ∀ σ, (s.wire w).port σ ≠ n)
    (hcomp : ∀ p ∈ s.ports, p.2 ≠ n) : Drawn (s.removeNode n) W :=
  { h with
    nodup := h.nodup.erase n
    node_lt := fun m hm => h.node_lt m (mem_of_mem_erase hm)
    spot := fun a ha b hb => h.spot a (mem_of_mem_erase ha) b (mem_of_mem_erase hb)
    port_mem := fun w hw σ => (mem_erase_of_ne (hwire w hw σ)).mpr (h.port_mem w hw σ)
    component := fun p hp => (mem_erase_of_ne (hcomp p hp)).mpr (h.component p hp) }

/-- Without the node the loose ends at it are gone too. -/
theorem Linked.removeNode (h : Linked s W loose) (hnodup : s.nodes.Nodup)
    {loose' : List (Element × ℕ)}
    (hloose : ∀ m, m ≠ n → ∀ e, loose'.count (e, m) = loose.count (e, m)) :
    Linked (s.removeNode n) W loose' := by
  intro m hm e'
  obtain ⟨hmn, hm⟩ := hnodup.mem_erase_iff.mp hm
  have hends : (s.removeNode n).ends W e' m = s.ends W e' m := by cases e' <;> rfl
  rw [hends, hloose m hmn e']
  exact h m hm e'

variable {x y : ℤ}

theorem place_newNode (hm : m ≠ s.fresh) : (s.newNode x y).place m = s.place m := by
  simp [newNode, place, update_of_ne hm]

@[simp] theorem place_newNode_self : (s.newNode x y).place s.fresh = (x, y) := by
  simp [newNode, place]

theorem mem_nodes_newNode : m ∈ (s.newNode x y).nodes ↔ m ∈ s.nodes ∨ m = s.fresh := by
  simp [newNode]

theorem Drawn.ne_fresh (h : Drawn s W) (hm : m ∈ s.nodes) : m ≠ s.fresh := (h.node_lt m hm).ne

theorem Drawn.newNode (h : Drawn s W) (hfree : ∀ m ∈ s.nodes, s.place m ≠ (x, y)) :
    Drawn (s.newNode x y) W where
  nodup := nodup_append.mpr ⟨h.nodup, nodup_singleton _, fun a ha b hb hab =>
    h.ne_fresh ha (hab.trans (mem_singleton.mp hb))⟩
  node_lt := fun m hm => by
    cases mem_nodes_newNode.mp hm with
    | inl hm => exact (h.node_lt m hm).trans (Nat.lt_succ_self _)
    | inr hm => exact hm ▸ Nat.lt_succ_self _
  wire_lt := fun w hw => (h.wire_lt w hw).trans (Nat.lt_succ_self _)
  spot := fun a ha b hb hab => by
    cases mem_nodes_newNode.mp ha with
    | inl ha =>
      rw [place_newNode (h.ne_fresh ha)] at hab
      cases mem_nodes_newNode.mp hb with
      | inl hb => exact h.spot a ha b hb (hab.trans (place_newNode (h.ne_fresh hb)))
      | inr hb => exact absurd (by rw [hab, hb, place_newNode_self]) (hfree a ha)
    | inr ha =>
      rw [ha, place_newNode_self] at hab
      cases mem_nodes_newNode.mp hb with
      | inl hb => exact absurd (by rw [hab, place_newNode (h.ne_fresh hb)]) (hfree b hb)
      | inr hb => exact ha.trans hb.symm
  ordered := h.ordered
  port_mem := fun w hw σ => mem_nodes_newNode.mpr (.inl (h.port_mem w hw σ))
  place_port := fun w hw σ =>
    (place_newNode (h.ne_fresh (h.port_mem w hw σ))).trans (h.place_port w hw σ)
  component := fun p hp => mem_nodes_newNode.mpr (.inl (h.component p hp))
  apart := h.apart

theorem Linked.newNode (h : Linked s W loose) (hd : Drawn s W)
    (hloose : ∀ p ∈ loose, p.2 ∈ s.nodes) : Linked (s.newNode x y) W loose := by
  intro m hm e'
  have hends : (s.newNode x y).ends W e' m = s.ends W e' m := by cases e' <;> rfl
  rw [hends]
  cases mem_nodes_newNode.mp hm with
  | inl hm =>
    rw [← h m hm e']
    simp [Sheet.newNode, update_of_ne (hd.ne_fresh hm)]
  | inr hm =>
    subst hm
    have hl : loose.count (e', s.fresh) = 0 :=
      count_eq_zero.mpr fun hmem => hd.ne_fresh (hloose _ hmem) rfl
    have he : s.ends W e' s.fresh = 0 := by
      cases e' with
      | wire w =>
        have h1 := fun hw => hd.ne_fresh (hd.port_mem w hw .one)
        have h2 := fun hw => hd.ne_fresh (hd.port_mem w hw .two)
        grind [Sheet.ends, Wire.port]
      | component c =>
        exact count_eq_zero.mpr fun hmem => hd.ne_fresh (hd.component _ hmem) rfl
    simp [Sheet.newNode, hl, he]

/-! ## Wires -/

theorem Drawn.mono (h : Drawn s W) {W' : Finset ℕ} (hW : W' ⊆ W) : Drawn s W' :=
  { h with
    wire_lt := fun w hw => h.wire_lt w (hW hw)
    ordered := fun w hw => h.ordered w (hW hw)
    port_mem := fun w hw => h.port_mem w (hW hw)
    place_port := fun w hw => h.place_port w (hW hw)
    apart := fun v hv w hw => h.apart v (hW hv) w (hW hw) }

theorem Drawn.erase (h : Drawn s W) : Drawn s (W.erase w) := h.mono (Finset.erase_subset w W)

variable {V : Wire}

theorem wire_setWire_of_ne {v : ℕ} (hv : v ≠ w) : (s.setWire w V).wire v = s.wire v := by
  simp [setWire, update_of_ne hv]

@[simp] theorem wire_setWire_self : (s.setWire w V).wire w = V := by simp [setWire]

theorem Drawn.setWire (h : Drawn s W) (hw : w ∉ W) : Drawn (s.setWire w V) W :=
  h.congr_wire rfl (fun _ => rfl) rfl le_rfl fun _ hv =>
    wire_setWire_of_ne (ne_of_mem_of_not_mem hv hw)

theorem Drawn.fresh_notMem (h : Drawn s W) : s.fresh ∉ W := fun hmem =>
  absurd (h.wire_lt _ hmem) (lt_irrefl _)

theorem Drawn.newWire (h : Drawn s W) : Drawn (s.newWire V) W :=
  h.congr_wire rfl (fun _ => rfl) rfl (Nat.le_succ _) fun _ hv =>
    wire_setWire_of_ne (ne_of_mem_of_not_mem hv h.fresh_notMem)

theorem ends_congr {s' : Sheet} (hports : s'.ports = s.ports)
    (hwire : ∀ w ∈ W, s'.wire w = s.wire w) : s'.ends W e n = s.ends W e n := by
  cases e with
  | wire w =>
    simp only [ends]
    by_cases hw : w ∈ W
    · rw [hwire w hw]
    · rw [if_neg hw, if_neg hw]
  | component c => simp only [ends, hports]

theorem Linked.setWire (h : Linked s W loose) (hw : w ∉ W) :
    Linked (s.setWire w V) W loose := fun m hm e' =>
  (h m hm e').trans (congrArg (· + _) (Eq.symm (ends_congr rfl fun _ hv =>
    wire_setWire_of_ne (ne_of_mem_of_not_mem hv hw))))

theorem Linked.newWire (h : Linked s W loose) (hd : Drawn s W) :
    Linked (s.newWire V) W loose := h.setWire hd.fresh_notMem

theorem Linked.take (h : Linked s W loose) (hw : w ∈ W) : Linked s (W.erase w)
    ((.wire w, (s.wire w).port1) :: (.wire w, (s.wire w).port2) :: loose) := by
  intro m hm e'
  have hcount := h m hm e'
  cases e' with
  | wire v => grind [ends]
  | component c => grind [ends]

theorem Linked.put (hw : w ∉ W)
    (h : Linked s W ((.wire w, (s.wire w).port1) :: (.wire w, (s.wire w).port2) :: loose)) :
    Linked s (insert w W) loose := by
  intro m hm e'
  have hcount := h m hm e'
  cases e' with
  | wire v => grind [ends]
  | component c => grind [ends]

theorem Drawn.put (h : Drawn s W) (hlt : w < s.fresh) (hord : (s.wire w).Ordered)
    (hmem : ∀ σ, (s.wire w).port σ ∈ s.nodes)
    (hplace : ∀ σ, s.place ((s.wire w).port σ) = (s.wire w).endpoint σ)
    (hover : ∀ v ∈ W, ¬(s.wire v).Overlap (s.wire w).toSegment) : Drawn s (insert w W) :=
  { h with
    wire_lt := (Finset.forall_mem_insert ..).mpr ⟨hlt, h.wire_lt⟩
    ordered := (Finset.forall_mem_insert ..).mpr ⟨hord, h.ordered⟩
    port_mem := (Finset.forall_mem_insert ..).mpr ⟨hmem, h.port_mem⟩
    place_port := (Finset.forall_mem_insert ..).mpr ⟨hplace, h.place_port⟩
    apart := fun u hu v hv huv => by
      cases Finset.mem_insert.mp hu with
      | inl hu =>
        cases Finset.mem_insert.mp hv with
        | inl hv => exact absurd (hu.trans hv.symm) huv
        | inr hv => exact fun ho => hover v hv (hu ▸ ho.symm)
      | inr hu =>
        cases Finset.mem_insert.mp hv with
        | inl hv => exact hv ▸ hover u hu
        | inr hv => exact h.apart u hu v hv huv }

end Qucs.Wiring
