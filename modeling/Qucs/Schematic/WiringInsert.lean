/-
# An end of a new wire gets its node

A wire on its way in is in no list (`Entering`). First one end of it and then the other
gets a node (`Arrives`):

* a node is there: it is taken
* nothing is there: a new node
* a wire across: a new node, and the wire is cut
* a wire along, open: the new wire takes its place
* a wire along: the new wire begins only at the end of it

Each of these is a `Step`: afterwards the end is at its node, the other end is as
before, and the wires over the new one were over it before. `Arrives.spec` is the
same for both ends.
-/
import Qucs.Schematic.WiringNodes

namespace Qucs.Wiring

open Lib.Segments List Finset Segment Sheet Wire

variable {s s' : Sheet} {W W' : Finset ℕ} {loose : List (Element × ℕ)} {w pw pn n m v : ℕ}
  {e : Element} {σ : Side} {a : Axis} {p : ℤ × ℤ}

/-! ## One end of a wire -/

variable {V : Wire}

@[simp] theorem Wire.port_setPort : (V.setPort n σ).port σ = n := by cases σ <;> rfl

@[simp] theorem Wire.port_setPort_other :
    (V.setPort n σ).port σ.other = V.port σ.other := by cases σ <;> rfl

@[simp] theorem Wire.toSegment_setPort :
    (V.setPort n σ).toSegment = V.toSegment := by cases σ <;> rfl

@[simp] theorem Wire.port_moveEnd {c : ℤ} : (V.moveEnd σ a c n).port σ = n := port_setPort

@[simp] theorem Wire.port_moveEnd_other {c : ℤ} :
    (V.moveEnd σ a c n).port σ.other = V.port σ.other := by cases σ <;> rfl

@[simp] theorem Wire.toSegment_moveEnd {c : ℤ} :
    (V.moveEnd σ a c n).toSegment = V.move c σ a := toSegment_setPort

/-- A wire `w` on its way in, connected to nodes already as `loose` says. -/
structure Entering (s : Sheet) (W : Finset ℕ) (w : ℕ) (loose : List (Element × ℕ)) : Prop where
  drawn : Drawn s W
  linked : Linked s W loose
  listed : Listed s W
  new : w ∉ W
  lt : w < s.fresh
  ordered : (s.wire w).Ordered
  loose_mem : ∀ p ∈ loose, p.2 ∈ s.nodes

/-- The end `σ` of the wire is at its node. -/
def Anchored (s : Sheet) (w : ℕ) (σ : Side) : Prop :=
  (s.wire w).port σ ∈ s.nodes ∧ s.place ((s.wire w).port σ) = (s.wire w).endpoint σ

/-- From `s` to `s'` the end `σ` of the wire `w` got its node, the other end stays.
Wires that overlap it now did so before. -/
structure Step (σ : Side) (s : Sheet) (W : Finset ℕ) (w : ℕ) (loose : List (Element × ℕ))
    (s' : Sheet) (W' : Finset ℕ) : Prop where
  entering : Entering s' W' w ((.wire w, (s'.wire w).port σ) :: loose)
  anchored : Anchored s' w σ
  other_port : (s'.wire w).port σ.other = (s.wire w).port σ.other
  other_end : (s'.wire w).endpoint σ.other = (s.wire w).endpoint σ.other
  place : ∀ m ∈ s.nodes, s'.place m = s.place m
  lone : ∀ p, Lone s W p → Lone s' W' p
  kept : ∀ v ∈ W', (s'.wire v).Overlap (s'.wire w).toSegment →
    v ∈ W ∧ s'.wire v = s.wire v ∧ (s.wire v).Overlap (s.wire w).toSegment

/-- What can happen with the end `σ` of the new wire `w` at its place. -/
inductive Arrives (σ : Side) (s : Sheet) (W : Finset ℕ) (w : ℕ) : Sheet → Prop
  | node {pn : ℕ} : pn ∈ s.nodes → s.place pn = (s.wire w).endpoint σ →
      Arrives σ s W w (s.attach σ w pn)
  | free : (∀ m ∈ s.nodes, s.place m ≠ (s.wire w).endpoint σ) →
      (∀ v ∈ W, ¬(s.wire v).Covers ((s.wire w).endpoint σ)) →
      Arrives σ s W w (s.attachNew σ w)
  | split {ptr2 : ℕ} : (∀ m ∈ s.nodes, s.place m ≠ (s.wire w).endpoint σ) → ptr2 ∈ W →
      (s.wire ptr2).Inside ((s.wire w).endpoint σ) →
      (s.wire ptr2).isHorizontal ≠ (s.wire w).isHorizontal →
      Arrives σ s W w ((s.attachNew σ w).splitWire ptr2 s.fresh)
  | lengthen {ptr2 : ℕ} : ptr2 ∈ W → (s.wire ptr2).Inside ((s.wire w).endpoint σ) →
      (s.wire w).isHorizontal = (s.wire ptr2).isHorizontal →
      s.count ((s.wire ptr2).port σ.other) = 1 →
      Arrives σ s W w (s.lengthen σ (s.wire w).axis w ptr2 ((s.wire ptr2).port σ.other))
  | shorten {ptr2 : ℕ} : ptr2 ∈ W → (s.wire ptr2).Inside ((s.wire w).endpoint σ) →
      (s.wire w).isHorizontal = (s.wire ptr2).isHorizontal →
      ¬(s.wire ptr2).Covers ((s.wire w).endpoint σ.other) →
      Arrives σ s W w (s.shorten σ (s.wire w).axis w ptr2)

/-! ## What the lists say -/

theorem wire_eq_of_mem (hw : w ∉ W) (hv : v ∈ W) : (s.setWire w V).wire v = s.wire v :=
  wire_setWire_of_ne (ne_of_mem_of_not_mem hv hw)

theorem Lone.mono (h : Lone s W p) (hW : W' ⊆ W) (hwire : ∀ v ∈ W', s'.wire v = s.wire v) :
    Lone s' W' p := fun u hu v hv hup hvp =>
  h u (hW hu) v (hW hv) (hwire u hu ▸ hup) (hwire v hv ▸ hvp)

@[simp] theorem place_attach : (s.attach σ w n).place m = s.place m := by simp [Sheet.attach]

theorem wire_attach_self : (s.attach σ w n).wire w = (s.wire w).setPort n σ := wire_setWire_self

@[simp] theorem port_attach : ((s.attach σ w n).wire w).port σ = n := by
  rw [wire_attach_self, port_setPort]

@[simp] theorem toSegment_attach : ((s.attach σ w n).wire w).toSegment = (s.wire w).toSegment := by
  rw [wire_attach_self, toSegment_setPort]

theorem wire_attach_of_mem (hw : w ∉ W) (hv : v ∈ W) : (s.attach σ w n).wire v = s.wire v :=
  wire_eq_of_mem hw hv

theorem Entering.attach (h : Entering s W w loose) (hn : n ∈ s.nodes)
    (hplace : s.place n = (s.wire w).endpoint σ) : Step σ s W w loose (s.attach σ w n) W := by
  have hkeep : ∀ v ∈ W, (s.attach σ w n).wire v = s.wire v := fun v hv =>
    wire_attach_of_mem h.new hv
  refine
    { entering := ?_
      anchored := ?_
      other_port := by rw [wire_attach_self, port_setPort_other]
      other_end := by rw [toSegment_attach]
      place := fun m _ => place_attach
      lone := fun p hp => hp.mono subset_rfl hkeep
      kept := fun v hv ho => ⟨hv, hkeep v hv, by rwa [hkeep v hv, toSegment_attach] at ho⟩ }
  · rw [port_attach]
    exact { h with
      drawn := h.drawn.append.setWire h.new
      linked := h.linked.append.setWire h.new
      ordered := toSegment_attach.symm ▸ h.ordered
      loose_mem := forall_mem_cons.mpr ⟨hn, h.loose_mem⟩ }
  · unfold Anchored
    rw [port_attach, toSegment_attach, place_attach]
    exact ⟨hn, hplace⟩

theorem Entering.newNode {x y : ℤ} (h : Entering s W w loose)
    (hfree : ∀ m ∈ s.nodes, s.place m ≠ (x, y)) : Entering (s.newNode x y) W w loose :=
  { h with
    drawn := h.drawn.newNode hfree
    linked := h.linked.newNode h.drawn h.loose_mem
    lt := h.lt.trans (Nat.lt_succ_self _)
    loose_mem := fun p hp => mem_nodes_newNode.mpr (.inl (h.loose_mem p hp)) }

theorem Entering.attachNew (h : Entering s W w loose)
    (hfree : ∀ m ∈ s.nodes, s.place m ≠ (s.wire w).endpoint σ) :
    Step σ s W w loose (s.attachNew σ w) W := by
  have hstep := (h.newNode hfree).attach (mem_nodes_newNode.mpr (.inr rfl)) place_newNode_self
  exact { hstep with
    place := fun m hm =>
      (hstep.place m (mem_nodes_newNode.mpr (.inl hm))).trans
        (place_newNode (h.drawn.ne_fresh hm)) }

/-- Where the pieces of a cut wire are, the wire was. -/
theorem Lone.splitWire {ptr2 : ℕ} (h : Lone s W p) (hd : Drawn s W) (hptr2 : ptr2 ∈ W)
    (hin : (s.wire ptr2).Inside (s.place pn)) :
    Lone (s.splitWire ptr2 pn) (insert s.fresh W) p := by
  have hpieces : ((s.splitWire ptr2 pn).wire ptr2).Inside p →
      ¬((s.splitWire ptr2 pn).wire s.fresh).Inside p := by
    rw [wire_splitWire_self, wire_splitWire_fresh (hd.mem_ne_fresh hptr2)]
    exact fun h => h.not_onFrom
  intro u hu v hv hup hvp
  obtain ⟨u₀, hu₀, hu₀p, -, hueq⟩ := inside_splitWire hd hptr2 hin hu hup
  obtain ⟨v₀, hv₀, hv₀p, -, hveq⟩ := inside_splitWire hd hptr2 hin hv hvp
  have heq := h u₀ hu₀ v₀ hv₀ hu₀p hv₀p
  obtain rfl | ⟨rfl, rfl⟩ := hueq <;> obtain rfl | ⟨rfl, rfl⟩ := hveq
  · exact heq
  · exact absurd hvp (hpieces (heq ▸ hup))
  · exact absurd hup (hpieces (heq ▸ hvp))
  · rfl

/-- Another wire is cut in between. -/
theorem Step.splitWire {s₁ : Sheet} {W₁ : Finset ℕ} {ptr2 : ℕ} (h : Step σ s W w loose s₁ W₁)
    (hptr2 : ptr2 ∈ W₁) (hpn : pn ∈ s₁.nodes) (hin : (s₁.wire ptr2).Inside (s₁.place pn))
    (hover : ¬(s₁.wire ptr2).Overlap (s₁.wire w).toSegment) :
    Step σ s W w loose (s₁.splitWire ptr2 pn) (insert s₁.fresh W₁) := by
  have hd := h.entering.drawn
  have hptr2' := hd.mem_ne_fresh hptr2
  have hwire : (s₁.splitWire ptr2 pn).wire w = s₁.wire w :=
    wire_splitWire_of_ne (ne_of_mem_of_not_mem hptr2 h.entering.new).symm h.entering.lt.ne
  have hnew : w ∉ insert s₁.fresh W₁ := fun hmem => by
    cases mem_insert.mp hmem with
    | inl hmem => exact h.entering.lt.ne hmem
    | inr hmem => exact h.entering.new hmem
  refine
    { entering := ?_
      anchored := ?_
      other_port := by rw [hwire, h.other_port]
      other_end := by rw [hwire, h.other_end]
      place := fun m hm => place_splitWire.trans (h.place m hm)
      lone := fun p hp => ?_
      kept := fun v hv ho => ?_ }
  · rw [hwire]
    exact { h.entering with
      drawn := hd.splitWire hptr2 hpn hin
      linked := h.entering.linked.splitWire hd hptr2
      listed := h.entering.listed.splitWire hd
      new := hnew
      lt := h.entering.lt.trans (Nat.lt_succ_self _)
      ordered := hwire ▸ h.entering.ordered }
  · unfold Anchored
    rw [hwire, place_splitWire]
    exact h.anchored
  · exact (h.lone p hp).splitWire hd hptr2 hin
  · rw [hwire] at ho
    cases mem_insert.mp hv with
    | inl hv =>
      rw [hv, wire_splitWire_fresh hptr2'] at ho
      exact absurd (ho.symm.of_onFrom hin h.entering.ordered).symm hover
    | inr hv =>
      by_cases hvp : v = ptr2
      · rw [hvp, wire_splitWire_self] at ho
        exact absurd (ho.symm.of_upTo hin h.entering.ordered).symm hover
      · rw [wire_splitWire_of_ne hvp (hd.mem_ne_fresh hv)] at ho ⊢
        exact h.kept v hv ho

theorem Drawn.port_side_ne (hd : Drawn s W) (hw : w ∈ W) (σ : Side) :
    (s.wire w).port σ ≠ (s.wire w).port σ.other := by
  cases σ
  · exact hd.port_ne hw
  · exact (hd.port_ne hw).symm

theorem toSegment_lengthen (hdir : (s.wire w).isHorizontal = (s.wire pw).isHorizontal)
    (hc : (s.wire pw).Covers ((s.wire w).endpoint σ)) (hw : (s.wire w).Ordered)
    (hpw : (s.wire pw).Ordered) : ((s.lengthen σ (s.wire w).axis w pw n).wire w).toSegment =
      (s.wire w).stretch (s.wire pw).toSegment σ := by
  rw [wire_lengthen_self, toSegment_moveEnd, move_coord_eq_stretch hw hpw hdir hc]

theorem wire_shorten_self : (s.shorten σ a w pw).wire w =
    (s.wire w).moveEnd σ a ((s.wire pw).coord σ.other a) ((s.wire pw).port σ.other) :=
  wire_setWire_self

theorem toSegment_shorten (hdir : (s.wire w).isHorizontal = (s.wire pw).isHorizontal)
    (hc : (s.wire pw).Covers ((s.wire w).endpoint σ)) (hw : (s.wire w).Ordered)
    (hpw : (s.wire pw).Ordered) : ((s.shorten σ (s.wire w).axis w pw).wire w).toSegment =
      (s.wire w).clip (s.wire pw).toSegment σ := by
  rw [wire_shorten_self, toSegment_moveEnd, move_coord_eq_clip hw hpw hdir hc]

section Along

variable (hpw : pw ∈ W) (hdir : (s.wire w).isHorizontal = (s.wire pw).isHorizontal)
  (hc : (s.wire pw).Covers ((s.wire w).endpoint σ))
include hpw hdir hc

theorem Entering.lengthen {loose₁ : List (Element × ℕ)} (h : Entering s W w loose₁)
    (hn : (s.wire pw).port σ.other = n) (honly : OnlyAt s W pw n)
    (hloose : ∀ m, m ≠ n → ∀ e, loose.count (e, m) = loose₁.count (e, m))
    (hzero : ∀ e, loose.count (e, n) = 0) (hmem : ∀ p ∈ loose, p.2 ∈ s.nodes) :
    Step σ s W w loose (s.lengthen σ (s.wire w).axis w pw n) (W.erase pw) := by
  have hd := h.drawn
  have hseg := toSegment_lengthen (n := n) hdir hc h.ordered (hd.ordered pw hpw)
  have hport : ((s.lengthen σ (s.wire w).axis w pw n).wire w).port σ = (s.wire pw).port σ := by
    rw [wire_lengthen_self, port_moveEnd]
  have hkeep : ∀ v ∈ W.erase pw, (s.lengthen σ (s.wire w).axis w pw n).wire v = s.wire v :=
    fun v hv => wire_lengthen_of_ne (ne_of_mem_of_not_mem (mem_of_mem_erase hv) h.new)
  have hin : ∀ m ∈ s.nodes, m ≠ n → m ∈ (s.lengthen σ (s.wire w).axis w pw n).nodes :=
    fun m hm hne => hd.nodup.mem_erase_iff.mpr ⟨hne, hm⟩
  have hpwσ : (s.wire pw).port σ ∈ (s.lengthen σ (s.wire w).axis w pw n).nodes :=
    hin _ (hd.port_mem pw hpw σ) (hn ▸ hd.port_side_ne hpw σ)
  refine
    { entering := ?_
      anchored := ?_
      other_port := by rw [wire_lengthen_self, port_moveEnd_other]
      other_end := by rw [hseg, endpoint_stretch_other]
      place := fun m _ => place_lengthen
      lone := fun p hp => hp.mono (erase_subset pw W) hkeep
      kept := fun v hv ho => ?_ }
  · rw [hport]
    exact
      { drawn := hd.lengthen h.new honly
        linked := h.linked.lengthen hd h.new hpw hn hloose
        listed := h.listed.removeWire
        new := fun hmem => h.new (mem_of_mem_erase hmem)
        lt := h.lt
        ordered := hseg ▸ h.ordered.stretch (hd.ordered pw hpw) hdir hc
        loose_mem := forall_mem_cons.mpr ⟨hpwσ, fun p hp =>
          hin p.2 (hmem p hp) (snd_ne_of_count_eq_zero hzero p hp)⟩ }
  · unfold Anchored
    rw [hport, hseg, place_lengthen, endpoint_stretch]
    exact ⟨hpwσ, hd.place_port pw hpw σ⟩
  · obtain ⟨hne, hv'⟩ := mem_erase.mp hv
    rw [hkeep v hv, hseg] at ho
    refine ⟨hv', hkeep v hv, ?_⟩
    obtain ho | ho := ho.of_stretch h.ordered (hd.ordered pw hpw) hc (hd.ordered v hv')
    · exact ho
    · exact absurd ho (hd.apart v hv' pw hpw hne)

theorem Entering.shorten (h : Entering s W w loose)
    (hnot : ¬(s.wire pw).Covers ((s.wire w).endpoint σ.other)) :
    Step σ s W w loose (s.shorten σ (s.wire w).axis w pw) W := by
  have hd := h.drawn
  have hseg := toSegment_shorten hdir hc h.ordered (hd.ordered pw hpw)
  have hport : ((s.shorten σ (s.wire w).axis w pw).wire w).port σ = (s.wire pw).port σ.other := by
    rw [wire_shorten_self, port_moveEnd]
  have hkeep : ∀ v ∈ W, (s.shorten σ (s.wire w).axis w pw).wire v = s.wire v := fun v hv =>
    wire_eq_of_mem h.new hv
  refine
    { entering := ?_
      anchored := ?_
      other_port := by rw [wire_shorten_self, port_moveEnd_other]
      other_end := by rw [hseg, endpoint_clip_other]
      place := fun m _ => place_shorten
      lone := fun p hp => hp.mono subset_rfl hkeep
      kept := fun v hv ho => ⟨hv, hkeep v hv, ?_⟩ }
  · rw [hport]
    exact { h with
      drawn := hd.shorten h.new
      linked := h.linked.shorten h.new
      ordered := hseg ▸ h.ordered.clip (hd.ordered pw hpw) hdir hc hnot
      loose_mem := forall_mem_cons.mpr ⟨hd.port_mem pw hpw σ.other, h.loose_mem⟩ }
  · unfold Anchored
    rw [hport, hseg, place_shorten, endpoint_clip]
    exact ⟨hd.port_mem pw hpw σ.other, hd.place_port pw hpw σ.other⟩
  · rw [hkeep v hv, hseg] at ho
    exact ho.of_clip h.ordered (hd.ordered pw hpw) hc hnot

end Along

theorem Entering.swallow (h : Entering s W w ((.wire w, (s.wire w).port σ) :: loose))
    (hanch : Anchored s w σ) (honly : OnlyAt s W pw ((s.wire pw).port σ.other)) (hpw : pw ∈ W)
    (hzero : ∀ e, ((.wire w, (s.wire w).port σ) :: loose).count (e, (s.wire pw).port σ.other) = 0) :
    Step σ s W w loose (s.swallow σ pw) (W.erase pw) := by
  have hd := h.drawn
  have hin := fun p hp => hd.nodup.mem_erase_iff.mpr
      ⟨snd_ne_of_count_eq_zero hzero p hp, h.loose_mem p hp⟩
  exact
    { entering := { h with
        drawn := hd.swallow honly
        linked := h.linked.swallow hd hpw
        listed := h.listed.removeWire
        new := fun hmem => h.new (mem_of_mem_erase hmem)
        loose_mem := hin }
      anchored := ⟨hin _ mem_cons_self, place_swallow.trans hanch.2⟩
      other_port := rfl
      other_end := rfl
      place := fun _ _ => place_swallow
      lone := fun p hp => hp.mono (erase_subset pw W) fun _ _ => rfl
      kept := fun v hv ho => ⟨mem_of_mem_erase hv, rfl, ho⟩ }

theorem Entering.removeRef (h : Entering s W w ((e, n) :: loose)) :
    Entering (s.removeRef n e) W w loose :=
  { h with
    drawn := h.drawn.removeRef
    linked := h.linked.removeRef
    loose_mem := fun p hp => h.loose_mem p (mem_cons_of_mem _ hp) }

/-! ## The place of an end -/

/-- The last connection of the node is the new wire itself. -/
def EndsWith (s : Sheet) (w n : ℕ) : Prop := ∃ l, (s.node n).connections = l ++ [.wire w]

theorem endsWith_append : EndsWith (s.append n (.wire w)) w n :=
  ⟨(s.node n).connections, by rw [append, connections_relink, if_pos rfl]⟩

theorem EndsWith.prepend (h : EndsWith s w n) : EndsWith (s.prepend m e) w n := by
  obtain ⟨l, hl⟩ := h
  unfold EndsWith Sheet.prepend
  rw [connections_relink]
  split_ifs with hnm
  · exact ⟨e :: l, by rw [← hnm, hl, cons_append]⟩
  · exact ⟨l, hl⟩

theorem EndsWith.removeRef (h : EndsWith s w n) (hne : n ≠ m) : EndsWith (s.removeRef m e) w n := by
  unfold EndsWith Sheet.removeRef
  rw [connections_relink, if_neg hne]
  exact h

theorem EndsWith.splitWire (h : EndsWith s w n) (hne : n ≠ (s.wire pw).port2) :
    EndsWith (s.splitWire pw pn) w n := by
  exact h.prepend.prepend.prepend.removeRef hne

/-- Wires of one line that reach into each other. -/
theorem Drawn.not_covers (hd : Drawn s W) (hpw : pw ∈ W) (hv : v ∈ W) (hne : v ≠ pw)
    (hdir : (s.wire v).isHorizontal = (s.wire pw).isHorizontal) (hin : (s.wire pw).Inside p) :
    ¬(s.wire v).Covers p := fun hcov =>
  hd.apart pw hpw v hv hne.symm (.of_inside (hd.ordered v hv) hdir.symm hin hcov)

/-- **The first thing with an end of a new wire: it gets a node.** -/
theorem Arrives.spec (harr : Arrives σ s W w s') (h : Entering s W w loose) (hclear : Clear s W)
    (hlone : Lone s W ((s.wire w).endpoint σ)) :
    ∃ W', Step σ s W w loose s' W' ∧ Clear s' W' ∧ EndsWith s' w ((s'.wire w).port σ) ∧
      ∀ v ∈ W', (s'.wire v).Overlap (s'.wire w).toSegment →
        (s'.wire w).endpoint σ = (s.wire w).endpoint σ ∨
          ¬(s.wire v).Covers ((s.wire w).endpoint σ) := by
  have hd := h.drawn
  cases harr with
  | node hpn hplace =>
    refine ⟨W, h.attach hpn hplace, fun v hv m hm hin => hclear v hv m hm ?_, ?_,
      fun v hv _ => .inl (by rw [toSegment_attach])⟩
    · rwa [wire_attach_of_mem h.new hv, place_attach] at hin
    · rw [port_attach]
      exact endsWith_append
  | free hfree hno =>
    refine ⟨W, h.attachNew hfree, fun v hv m hm hin => ?_, ?_,
      fun v hv _ => .inl (by rw [attachNew, toSegment_attach]; rfl)⟩
    · rw [attachNew, wire_attach_of_mem h.new hv, place_attach] at hin
      obtain ⟨-, hin⟩ := hclear.inside_newNode hd hv hm hin
      exact hno v hv (hin.covers (hd.ordered v hv))
    · rw [attachNew, port_attach]
      exact endsWith_append
  | @split ptr2 hfree hptr2 hin hdir =>
    have hstep := h.attachNew hfree
    have hpn : s.fresh ∈ (s.attachNew σ w).nodes := hstep.entering.loose_mem _ (by
      rw [attachNew, port_attach]
      exact mem_cons_self)
    have hkeep : ∀ v ∈ W, (s.attachNew σ w).wire v = s.wire v := fun v hv =>
      wire_attach_of_mem h.new hv
    have hplace : (s.attachNew σ w).place s.fresh = (s.wire w).endpoint σ := by
      rw [attachNew, place_attach, place_newNode_self]
    have hin' : ((s.attachNew σ w).wire ptr2).Inside ((s.attachNew σ w).place s.fresh) := by
      rwa [hkeep ptr2 hptr2, hplace]
    have hover :=
      fun ho => hdir ((hstep.kept ptr2 hptr2 ho).2.2.isHorizontal_eq (hd.ordered ptr2 hptr2)
        h.ordered)
    have hself : ((s.attachNew σ w).splitWire ptr2 s.fresh).wire w = (s.attachNew σ w).wire w :=
      wire_splitWire_of_ne (ne_of_mem_of_not_mem hptr2 h.new).symm hstep.entering.lt.ne
    refine ⟨_, hstep.splitWire hptr2 hpn hin' hover,
      Clear.splitWire hstep.entering.drawn hptr2 hin' fun v hv m hm hvm => ?_, ?_,
      fun v hv _ => .inl ?_⟩
    · rw [hkeep v hv, attachNew, place_attach] at hvm
      obtain ⟨hm, hvm⟩ := hclear.inside_newNode hd hv hm hvm
      exact ⟨hlone v hv ptr2 hptr2 hvm hin, hm⟩
    · rw [hself, attachNew, port_attach]
      refine EndsWith.splitWire endsWith_append ?_
      exact (hd.ne_fresh (hkeep ptr2 hptr2 ▸ hd.port_mem ptr2 hptr2 .two)).symm
    · rw [hself, attachNew, toSegment_attach]
      rfl
  | lengthen hptr2 hin hdir hone =>
    obtain ⟨honly, hzero⟩ := h.linked.onlyAt_of_count_one (hd.port_mem _ hptr2 _) hptr2 rfl hone
    have hcov := hin.covers (hd.ordered _ hptr2)
    have hstep := Entering.lengthen hptr2 hdir hcov h rfl honly (fun _ _ _ => rfl) hzero h.loose_mem
    refine ⟨_, hstep, fun v hv m hm hvm => ?_, ?_, fun v hv ho => .inr ?_⟩
    · have hv' := mem_of_mem_erase hv
      rw [place_lengthen, wire_lengthen_of_ne (ne_of_mem_of_not_mem hv' h.new)] at hvm
      exact hclear v hv' m (mem_of_mem_erase hm) hvm
    · rw [wire_lengthen_self, port_moveEnd]
      exact endsWith_append
    · obtain ⟨hv', -, ho⟩ := hstep.kept v hv ho
      exact hd.not_covers hptr2 hv' (ne_of_mem_erase hv)
        ((ho.isHorizontal_eq (hd.ordered v hv') h.ordered).trans hdir) hin
  | @shorten ptr2 hptr2 hin hdir hnot =>
    have hcov := hin.covers (hd.ordered _ hptr2)
    have hstep := Entering.shorten hptr2 hdir hcov h hnot
    have hkeep : ∀ v ∈ W, (s.shorten σ (s.wire w).axis w ptr2).wire v = s.wire v := fun v hv =>
      wire_eq_of_mem h.new hv
    refine ⟨_, hstep, fun v hv m hm hvm => hclear v hv m hm ?_, ?_, fun v hv ho => .inr ?_⟩
    · rwa [hkeep v hv, place_shorten] at hvm
    · rw [wire_shorten_self, port_moveEnd]
      exact endsWith_append
    · obtain ⟨-, -, ho'⟩ := hstep.kept v hv ho
      refine hd.not_covers hptr2 hv ?_
        ((ho'.isHorizontal_eq (hd.ordered v hv) h.ordered).trans hdir) hin
      rintro rfl
      rw [hkeep v hv, toSegment_shorten hdir hcov h.ordered (hd.ordered v hv)] at ho
      exact not_overlap_clip h.ordered (hd.ordered v hv) hcov hnot ho

end Qucs.Wiring
