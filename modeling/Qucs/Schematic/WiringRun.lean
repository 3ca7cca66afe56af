/-
# A wiring stays well formed

A schematic is well formed if its wires have ordered ends at the places of their nodes,
the connections of a node are the elements that end there, no node is inside a wire,
and two wires have no more than a point in common (`WellFormed`).

This does not hold after every run: a node put on a crossing cuts one of the two wires
only (`Run.not_wellFormed_crossing`). It holds after every run of calls that fit
(`Run.wellFormed_of_fits`), and these calls return:

* `insertNode`: the place is inside one wire at most
* `insertWire`: the wire is horizontal or vertical and has a length, its ends are
  inside one wire at most; what it overlaps reaches over one of its ends, and no two
  such wires follow each other
* `deleteWire`: a wire of the schematic
-/
import Qucs.Schematic.WiringCover

namespace Qucs.Wiring

open Lib.Segments List Sheet
open Finset (notMem_empty)

variable {s s' : Sheet} {W W' : Finset ℕ} {loose : List (Element × ℕ)} {w pw pn n m v : ℕ}

/-! ## A wire is put in -/

structure Fitting (s : Sheet) (W : Finset ℕ) (w : ℕ) : Prop where
  entering : Entering s W w []
  clear : Clear s W
  lone : ∀ σ, Lone s W ((s.wire w).endpoint σ)
  reach : ∀ v ∈ W, (s.wire v).Overlap (s.wire w).toSegment →
    (s.wire v).Covers ((s.wire w).endpoint .one) ∨ (s.wire v).Covers ((s.wire w).endpoint .two)
  separate : Separate s W w .one

structure Begun (s : Sheet) (W : Finset ℕ) (w : ℕ) : Prop where
  entering : Entering s W w [(.wire w, (s.wire w).port .one)]
  anchored : Anchored s w .one
  clear : Clear s W
  lone : Lone s W ((s.wire w).endpoint .two)
  far : ∀ v ∈ W, (s.wire v).Overlap (s.wire w).toSegment →
    ¬(s.wire v).Covers ((s.wire w).endpoint .one)
  reach : ∀ v ∈ W, (s.wire v).Overlap (s.wire w).toSegment →
    (s.wire v).Covers ((s.wire w).endpoint .two)

structure Ended (s : Sheet) (W : Finset ℕ) (w : ℕ) : Prop where
  entering : Entering s W w [(.wire w, (s.wire w).port .two), (.wire w, (s.wire w).port .one)]
  anchored : ∀ σ, Anchored s w σ
  clear : Clear s W
  apart : ∀ v ∈ W, ¬(s.wire v).Overlap (s.wire w).toSegment

theorem Entering.sound (h : Entering s W w []) (hclear : Clear s W) : Sound s W :=
  ⟨h.drawn, h.linked, h.listed, hclear⟩

/-- One of the two functions is called, by the direction of the wire. -/
theorem connectWires1_axis : (if (s.wire w).isHorizontal then s.connectHWires1 w
    else s.connectVWires1 w) = s.connectWires1 (s.wire w).axis w := by
  unfold Segment.axis
  split_ifs <;> rfl

theorem connectWires2_axis : (if (s.wire w).isHorizontal then s.connectHWires2 w
    else s.connectVWires2 w) = s.connectWires2 (s.wire w).axis w := by
  unfold Segment.axis
  split_ifs <;> rfl

theorem Fitting.begun (h : Fitting s W w) {s₁ : Sheet} (harr : Arrives .one s W w s₁) :
    (∃ W', Sound (s₁.removeRef (s₁.wire w).port1 (.wire w)) W') ∧
      s₁.connectWires1 (s₁.wire w).axis w = (false, s₁.removeRef (s₁.wire w).port1 (.wire w)) ∨
      ∃ s₂ W₂, s₁.connectWires1 (s₁.wire w).axis w = (true, s₂) ∧ Begun s₂ W₂ w := by
  obtain ⟨W₁, hstep₁, hclear₁, hlast, hmore⟩ := harr.spec h.entering h.clear (h.lone .one)
  have htwo₁ : (s₁.wire w).endpoint .two = (s.wire w).endpoint .two := hstep₁.other_end
  have hover₁ : ∀ v ∈ W₁, (s₁.wire v).Overlap (s₁.wire w).toSegment →
      (s₁.wire v).Covers ((s₁.wire w).endpoint .one) ∨
        (s₁.wire v).Covers ((s₁.wire w).endpoint .two) := fun v hv ho => by
    obtain ⟨hvW, hwire, ho'⟩ := hstep₁.kept v hv ho
    rw [hwire, htwo₁]
    cases hmore v hv ho with
    | inl hone => exact hone ▸ h.reach v hvW ho'
    | inr hone => exact .inr ((h.reach v hvW ho').resolve_left hone)
  have hsep₁ : Separate s₁ W₁ w .one := fun u hu v hv huo hvo => by
    obtain ⟨huW, hu', huo'⟩ := hstep₁.kept u hu huo
    obtain ⟨hvW, hv', hvo'⟩ := hstep₁.kept v hv hvo
    rw [hu', hv']
    exact h.separate u huW v hvW huo' hvo'
  obtain hfalse | ⟨s₂, hs₂, hcon⟩ :=
    connectWires1_spec hstep₁.entering hstep₁.anchored hlast fun _ => count_nil
  · exact .inl ⟨⟨W₁, hstep₁.entering.removeRef.sound (hclear₁.relink _)⟩, hfalse⟩
  · obtain ⟨W₂, hstep₂, hclear₂, hnot, hnot'⟩ := hcon.spec hstep₁.entering hstep₁.anchored hclear₁
    have htwo : (s₂.wire w).endpoint .two = (s₁.wire w).endpoint .two := hstep₂.other_end
    refine .inr ⟨s₂, W₂, hs₂, hstep₂.entering, hstep₂.anchored, hclear₂, ?_, fun v hv ho => ?_,
      fun v hv ho => ?_⟩
    · refine hstep₂.lone _ ?_
      rw [htwo, htwo₁]
      exact hstep₁.lone _ (h.lone .two)
    · rw [(hstep₂.kept v hv ho).2.1]
      exact hnot' hsep₁ v hv ho
    · obtain ⟨hvW, hwire, ho'⟩ := hstep₂.kept v hv ho
      rw [hwire, htwo]
      exact (hover₁ v hvW ho').resolve_left (hnot v hv ho)

theorem Begun.ended (h : Begun s W w) {s₁ : Sheet} (harr : Arrives .two s W w s₁) :
    ∃ W', Ended (s₁.connectWires2 (s₁.wire w).axis w) W' w := by
  obtain ⟨W₁, hstep₁, hclear₁, hlast, hmore⟩ := harr.spec h.entering h.clear h.lone
  have hone : (s₁.wire w).endpoint .one = (s.wire w).endpoint .one := hstep₁.other_end
  have hport : (s₁.wire w).port .one = (s.wire w).port .one := hstep₁.other_port
  have hmem₁ : (s₁.wire w).port .one ∈ s₁.nodes := by
    rw [hport]
    exact hstep₁.entering.loose_mem _ (mem_cons_of_mem _ mem_cons_self)
  have hanch₁ : Anchored s₁ w .one := by
    refine ⟨hmem₁, ?_⟩
    rw [hport, hstep₁.place _ h.anchored.1, h.anchored.2, hone]
  have hfar₁ : Far s₁ W₁ w .one := fun v hv ho => by
    obtain ⟨hvW, hwire, ho'⟩ := hstep₁.kept v hv ho
    rw [hwire, hone]
    exact h.far v hvW ho'
  have hover₁ : ∀ v ∈ W₁, (s₁.wire v).Overlap (s₁.wire w).toSegment →
      (s₁.wire v).Covers ((s₁.wire w).endpoint .two) := fun v hv ho => by
    obtain ⟨hvW, hwire, ho'⟩ := hstep₁.kept v hv ho
    rw [hwire]
    cases hmore v hv ho with
    | inl htwo => exact htwo ▸ h.reach v hvW ho'
    | inr htwo => exact absurd (h.reach v hvW ho') htwo
  have hne : (s.wire w).port .one ≠ (s₁.wire w).port .two := fun heq => by
    refine Segment.endpoint_ne hstep₁.entering.ordered ?_
    rw [← hanch₁.2, ← hstep₁.anchored.2, ← heq, hport]
  have hzero : ∀ e, [(Element.wire w, (s.wire w).port .one)].count (e, (s₁.wire w).port .two) = 0 :=
    fun e => count_eq_zero.mpr (by simp [hne.symm])
  have hcon := connectWires2_spec hstep₁.entering hstep₁.anchored hlast hzero hfar₁
  obtain ⟨W₂, hstep₂, hclear₂, hnot, -⟩ := hcon.spec hstep₁.entering hstep₁.anchored hclear₁
  have hport₂ : ((s₁.connectWires2 (s₁.wire w).axis w).wire w).port .one = (s.wire w).port .one :=
    hstep₂.other_port.trans hport
  refine ⟨W₂, hport₂ ▸ hstep₂.entering, ?_, hclear₂, fun v hv ho => ?_⟩
  · rintro (_ | _)
    · refine ⟨?_, ?_⟩
      · rw [hport₂]
        exact hstep₂.entering.loose_mem _ (mem_cons_of_mem _ mem_cons_self)
      · rw [hport₂, ← hport, hstep₂.place _ hmem₁, hanch₁.2]
        exact hstep₂.other_end.symm
    · exact hstep₂.anchored
  · obtain ⟨hvW, -, ho'⟩ := hstep₂.kept v hv ho
    exact hnot v hv ho (hover₁ v hvW ho')

theorem Ended.finishes (h : Ended s W w) : Finishes (s.appendWire w) w 0 := by
  have hd : Drawn s (insert w W) :=
    h.entering.drawn.put h.entering.lt h.entering.ordered (fun σ => (h.anchored σ).1)
      (fun σ => (h.anchored σ).2) h.apart
  have hl : Linked s (insert w W) [] := Linked.put h.entering.new
    (h.entering.linked.congr fun p => by
      simp only [count_cons, count_nil, Wire.port]
      omega)
  have hcovering : Covering (s.appendWire w) (insert w W) s.wires w [] 0 :=
    { drawn := hd.appendWire
      linked := hl.appendWire
      listed := h.entering.listed.appendWire h.entering.new
      wires := rfl
      done := fun v hv => h.clear v ((h.entering.listed.2 v).mp hv)
      passed := fun m hm => absurd hm (by simp)
      bound := Nat.zero_le _ }
  exact hcovering.finishes

/-- The conditions on a new wire before it is put in: its ends are at no crossing, and
what it overlaps reaches over one of its ends, no two such wires next to each other. -/
structure FitsWire (s : Sheet) (S : Segment) : Prop where
  ordered : S.Ordered
  lone : ∀ σ, ∀ u ∈ s.wires, ∀ v ∈ s.wires,
    (s.wire u).Inside (S.endpoint σ) → (s.wire v).Inside (S.endpoint σ) → u = v
  reach : ∀ v ∈ s.wires, (s.wire v).Overlap S →
    (s.wire v).Covers (S.endpoint .one) ∨ (s.wire v).Covers (S.endpoint .two)
  separate : ∀ u ∈ s.wires, ∀ v ∈ s.wires, (s.wire u).Overlap S → (s.wire v).Overlap S →
    (s.wire u).endpoint .two ≠ (s.wire v).endpoint .one

instance (s : Sheet) (S : Segment) : Decidable (FitsWire s S) :=
  decidable_of_iff
    (S.Ordered ∧ (∀ σ ∈ [Side.one, Side.two], ∀ u ∈ s.wires, ∀ v ∈ s.wires,
      (s.wire u).Inside (S.endpoint σ) → (s.wire v).Inside (S.endpoint σ) → u = v) ∧
      (∀ v ∈ s.wires, (s.wire v).Overlap S →
        (s.wire v).Covers (S.endpoint .one) ∨ (s.wire v).Covers (S.endpoint .two)) ∧
      ∀ u ∈ s.wires, ∀ v ∈ s.wires, (s.wire u).Overlap S → (s.wire v).Overlap S →
        (s.wire u).endpoint .two ≠ (s.wire v).endpoint .one)
    ⟨fun ⟨ho, hl, hc, hs⟩ => ⟨ho, fun σ => hl σ (by cases σ <;> simp), hc, hs⟩,
      fun h => ⟨h.ordered, fun σ _ => h.lone σ, h.reach, h.separate⟩⟩

theorem Sound.fitting (h : Sound s W) {S : Segment} (hfit : FitsWire s S) :
    Fitting (s.newWire ⟨S, 0, 0⟩) W s.fresh := by
  have hself : (s.newWire ⟨S, 0, 0⟩).wire s.fresh = ⟨S, 0, 0⟩ := wire_setWire_self
  have hkeep : ∀ v ∈ W, (s.newWire ⟨S, 0, 0⟩).wire v = s.wire v := fun v hv =>
    wire_setWire_of_ne (h.drawn.mem_ne_fresh hv)
  have hmem := fun v => (h.listed.2 v).mpr
  refine
    { entering :=
        { drawn := h.drawn.newWire
          linked := h.linked.newWire h.drawn
          listed := h.listed
          new := h.drawn.fresh_notMem
          lt := Nat.lt_succ_self _
          ordered := by rw [hself]; exact hfit.ordered
          loose_mem := fun p hp => absurd hp not_mem_nil }
      clear := fun v hv m hm hin => h.clear v hv m hm (hkeep v hv ▸ hin)
      lone := fun σ u hu v hv hup hvp => ?_
      reach := fun v hv ho => ?_
      separate := fun u hu v hv huo hvo => ?_ }
  · rw [hkeep u hu, hself] at hup
    rw [hkeep v hv, hself] at hvp
    exact hfit.lone σ u (hmem u hu) v (hmem v hv) hup hvp
  · rw [hkeep v hv, hself] at ho ⊢
    exact hfit.reach v (hmem v hv) ho
  · rw [hkeep u hu, hself] at huo
    rw [hkeep v hv, hself] at hvo
    rw [hkeep u hu, hkeep v hv]
    exact hfit.separate u (hmem u hu) v (hmem v hv) huo hvo

/-- **A wire is put in that fits.** -/
theorem Sound.insertWire (h : Sound s W) {x1 y1 x2 y2 : ℤ}
    (hfit : FitsWire s (Sheet.order x1 y1 x2 y2).2) : ∃ con s' W', Sound s' W' ∧
      ∃ K, ∀ fuel, Sheet.insertWire fuel s x1 y1 x2 y2 =
        if K ≤ fuel then some (con, s') else none := by
  unfold Sheet.insertWire
  generalize order x1 y1 x2 y2 = ordered at hfit ⊢
  obtain ⟨con, S⟩ := ordered
  have hbegin := h.fitting hfit
  dsimp only at hbegin ⊢
  obtain hwithin | ⟨r, s₁, hs₁, hr, harr⟩ := insertWireNode1_spec hbegin.entering
  · simp only [hwithin, if_true]
    exact ⟨3, _, W, hbegin.entering.sound hbegin.clear, 0, fun fuel => by simp⟩
  · simp only [hs₁, if_neg hr, connectWires1_axis]
    obtain ⟨⟨W', hsound⟩, hfalse⟩ | ⟨s₂, W₂, hs₂, hbegun⟩ := hbegin.begun harr
    · simp only [hfalse]
      exact ⟨3, _, W', hsound, 0, fun fuel => by simp⟩
    · obtain ⟨r', s₃, hs₃, hr', harr'⟩ := insertWireNode2_spec hbegun.entering hbegun.far
      obtain ⟨W₄, hended⟩ := hbegun.ended harr'
      obtain ⟨s', W', hsound, K, hK⟩ := hended.finishes
      simp only [hs₂, hs₃, if_neg hr', connectWires2_axis, hK, Bool.not_true,
        Bool.false_eq_true, if_false]
      exact ⟨_, s', W', hsound, K, fun fuel =>
        apply_ite (Option.map _) (K ≤ fuel) (some s') none⟩

/-! ## Runs -/

inductive Call where
  | insertNode (x y : ℤ) (c : ℕ)
  | insertWire (x1 y1 x2 y2 : ℤ)
  | deleteWire (w : ℕ)
  deriving DecidableEq, Repr

def Call.exec (fuel : ℕ) (s : Sheet) : Call → Option Sheet
  | .insertNode x y c => some (s.insertPort x y c)
  | .insertWire x1 y1 x2 y2 => (Sheet.insertWire fuel s x1 y1 x2 y2).map Prod.snd
  | .deleteWire w => some (s.deleteWire w)

/-- A call with what it is meant for: horizontal and vertical wires are put in, wires of
the schematic are deleted. -/
def Call.Legal (s : Sheet) : Call → Prop
  | .insertNode _ _ _ => True
  | .insertWire x1 y1 x2 y2 => x1 = x2 ∨ y1 = y2
  | .deleteWire w => w ∈ s.wires

/-- A call that does not meet the cases the functions get wrong: no new node at a
crossing, no new wire along wires that it has to be cut at. -/
def Call.Fits (s : Sheet) : Call → Prop
  | .insertNode x y _ => ∀ u ∈ s.wires, ∀ v ∈ s.wires,
      (s.wire u).Inside (x, y) → (s.wire v).Inside (x, y) → u = v
  | .insertWire x1 y1 x2 y2 => FitsWire s (Sheet.order x1 y1 x2 y2).2
  | .deleteWire w => w ∈ s.wires

instance (s : Sheet) (call : Call) : Decidable (call.Fits s) :=
  match call with
  | .insertNode x y _ => inferInstanceAs (Decidable (∀ u ∈ s.wires, ∀ v ∈ s.wires,
      (s.wire u).Inside (x, y) → (s.wire v).Inside (x, y) → u = v))
  | .insertWire x1 y1 x2 y2 => inferInstanceAs (Decidable (FitsWire s (Sheet.order x1 y1 x2 y2).2))
  | .deleteWire w => inferInstanceAs (Decidable (w ∈ s.wires))

/-- Reached from the empty schematic by calls with a property. -/
inductive Run (P : Sheet → Call → Prop) : Sheet → Prop
  | empty : Run P Sheet.empty
  | step {s s' : Sheet} {call : Call} {fuel : ℕ} :
      Run P s → P s call → call.exec fuel s = some s' → Run P s'

/-- The elements that end at a node. -/
def Sheet.elementsAt (s : Sheet) (n : ℕ) : List Element :=
  s.wires.flatMap (fun w =>
    (if (s.wire w).port1 = n then [.wire w] else []) ++
      (if (s.wire w).port2 = n then [.wire w] else [])) ++
  s.ports.filterMap fun p => if p.2 = n then some (.component p.1) else none

structure WellFormed (s : Sheet) : Prop where
  ordered : ∀ w ∈ s.wires, (s.wire w).Ordered
  port_mem : ∀ w ∈ s.wires, ∀ σ, (s.wire w).port σ ∈ s.nodes
  place_port : ∀ w ∈ s.wires, ∀ σ, s.place ((s.wire w).port σ) = (s.wire w).endpoint σ
  connections : ∀ n ∈ s.nodes, (s.node n).connections.Perm (s.elementsAt n)
  clear : ∀ w ∈ s.wires, ∀ n ∈ s.nodes, ¬(s.wire w).Inside (s.place n)
  apart : ∀ v ∈ s.wires, ∀ w ∈ s.wires, v ≠ w → ∀ p q,
    (s.wire v).Covers p ∧ (s.wire w).Covers p → (s.wire v).Covers q ∧ (s.wire w).Covers q → p = q

theorem count_wire_flatMap (l : List ℕ) (hl : l.Nodup) :
    (l.flatMap fun w => (if (s.wire w).port1 = n then [Element.wire w] else []) ++
      (if (s.wire w).port2 = n then [.wire w] else [])).count (.wire w) =
    if w ∈ l then
      (if (s.wire w).port1 = n then 1 else 0) + (if (s.wire w).port2 = n then 1 else 0)
    else 0 := by
  induction l with
  | nil => rfl
  | cons v l ih =>
    grind

theorem count_component_flatMap (l : List ℕ) (c : ℕ) :
    (l.flatMap fun w => (if (s.wire w).port1 = n then [Element.wire w] else []) ++
      (if (s.wire w).port2 = n then [.wire w] else [])).count (.component c) = 0 := by
  refine count_eq_zero.mpr fun hmem => ?_
  obtain ⟨w, -, hw⟩ := mem_flatMap.mp hmem
  grind

theorem count_filterMap_ports (l : List (ℕ × ℕ)) (c : ℕ) :
    (l.filterMap fun p => if p.2 = n then some (Element.component p.1) else none).count
      (.component c) = l.count (c, n) := by
  induction l with
  | nil => rfl
  | cons p l ih =>
    obtain ⟨c', m⟩ := p
    grind

theorem Listed.count_elementsAt (h : Listed s W) (e : Element) :
    (s.elementsAt n).count e = s.ends W e n := by
  unfold elementsAt
  rw [count_append]
  cases e with
  | wire w =>
    have hports : (s.ports.filterMap fun p =>
        if p.2 = n then some (Element.component p.1) else none).count (.wire w) = 0 :=
      count_eq_zero.mpr fun hmem => by
        obtain ⟨p, -, hp⟩ := mem_filterMap.mp hmem
        grind
    rw [count_wire_flatMap s.wires h.1, hports, Nat.add_zero]
    simp only [ends, h.2 w]
  | component c => rw [count_component_flatMap, count_filterMap_ports, Nat.zero_add, ends]

theorem Sound.toWellFormed (h : Sound s W) : WellFormed s where
  ordered := fun w hw => h.drawn.ordered w ((h.listed.2 w).mp hw)
  port_mem := fun w hw => h.drawn.port_mem w ((h.listed.2 w).mp hw)
  place_port := fun w hw => h.drawn.place_port w ((h.listed.2 w).mp hw)
  connections := fun n hn => perm_iff_count.mpr fun e => by
    rw [h.linked n hn e, h.listed.count_elementsAt, count_nil, Nat.add_zero]
  clear := fun w hw => h.clear w ((h.listed.2 w).mp hw)
  apart := fun v hv w hw hne p q hp hq => by
    by_contra hpq
    have hv := (h.listed.2 v).mp hv
    have hw := (h.listed.2 w).mp hw
    exact h.drawn.apart v hv w hw hne ((Segment.overlap_iff (h.drawn.ordered v hv)
      (h.drawn.ordered w hw)).mpr ⟨p, q, hpq, hp, hq⟩)

theorem sound_empty : Sound Sheet.empty ∅ where
  drawn :=
    { nodup := nodup_nil
      node_lt := fun n hn => absurd hn not_mem_nil
      wire_lt := fun w hw => absurd hw (notMem_empty w)
      spot := fun n hn => absurd hn not_mem_nil
      ordered := fun w hw => absurd hw (notMem_empty w)
      port_mem := fun w hw => absurd hw (notMem_empty w)
      place_port := fun w hw => absurd hw (notMem_empty w)
      component := fun p hp => absurd hp not_mem_nil
      apart := fun w hw => absurd hw (notMem_empty w) }
  linked := fun n hn => absurd hn not_mem_nil
  listed := ⟨nodup_nil, fun w => by simp [empty]⟩
  clear := fun w hw => absurd hw (notMem_empty w)

theorem Sound.exec (h : Sound s W) {call : Call} (hfit : call.Fits s) :
    ∃ s' W', Sound s' W' ∧ ∃ K, ∀ fuel, call.exec fuel s = if K ≤ fuel then some s' else none := by
  cases call with
  | insertNode x y c =>
    obtain ⟨W', hsound⟩ := h.insertPort (c := c) fun u hu v hv =>
      hfit u ((h.listed.2 u).mpr hu) v ((h.listed.2 v).mpr hv)
    exact ⟨_, W', hsound, 0, fun fuel => by simp [Call.exec]⟩
  | insertWire x1 y1 x2 y2 =>
    obtain ⟨con, s', W', hsound, K, hK⟩ := h.insertWire hfit
    refine ⟨s', W', hsound, K, fun fuel => ?_⟩
    rw [Call.exec, hK]
    exact apply_ite (Option.map Prod.snd) (K ≤ fuel) (some (con, s')) none
  | deleteWire w =>
    obtain ⟨W', hsound⟩ := h.deleteWire ((h.listed.2 w).mp hfit)
    exact ⟨_, W', hsound, 0, fun fuel => by simp [Call.exec]⟩

theorem Run.sound (h : Run Call.Fits s) : ∃ W, Sound s W := by
  induction h with
  | empty => exact ⟨∅, sound_empty⟩
  | step _ hfit hexec ih =>
    obtain ⟨W, hsound⟩ := ih
    obtain ⟨s', W', hsound', K, hK⟩ := hsound.exec hfit
    rw [hK] at hexec
    split_ifs at hexec
    exact ⟨W', Option.some.inj hexec ▸ hsound'⟩

/-- **A wiring stays well formed**, as long as no call meets a case the functions get
wrong; and such a call returns. -/
theorem Run.wellFormed_of_fits (h : Run Call.Fits s) : WellFormed s ∧
    ∀ call : Call, call.Fits s →
      ∃ s' K, ∀ fuel, call.exec fuel s = if K ≤ fuel then some s' else none := by
  obtain ⟨W, hsound⟩ := h.sound
  refine ⟨hsound.toWellFormed, fun call hfit => ?_⟩
  obtain ⟨s', -, -, K, hK⟩ := hsound.exec hfit
  exact ⟨s', K, hK⟩

/-! ## A crossing -/

def after (s : Sheet) (call : Call) : Sheet := (call.exec 9 s).getD s

theorem Run.after {P : Sheet → Call → Prop} (h : Run P s) (call : Call) (hP : P s call)
    (hexec : (call.exec 9 s).isSome) : Run P (after s call) := by
  have hsome : call.exec 9 s = some (Wiring.after s call) := by
    unfold Wiring.after
    cases hs' : call.exec 9 s with
    | none => simp [hs'] at hexec
    | some s' => rfl
  exact h.step hP hsome

/-- Two wires cross; the port of a component is put on the crossing. Only the first
wire is cut, so the node of the port lies inside the other one. -/
theorem Run.not_wellFormed_crossing : ∃ s, Run Call.Legal s ∧ ¬WellFormed s := by
  have hcross := ((Run.empty (P := Call.Legal)).after (.insertWire 0 2 4 2) (Or.inr rfl)
    (by decide)).after (.insertWire 2 0 2 4) (Or.inl rfl) (by decide)
  refine ⟨_, hcross.after (.insertNode 2 2 0) trivial (by decide), fun h => ?_⟩
  exact h.clear 3 (by decide) 6 (by decide) (by decide)

/-- A wire, a second one that ends on it, and a third one that lengthens a piece. -/
theorem Run.wellFormed_junction : ∃ s, Run Call.Fits s ∧ s.wires.length = 3 ∧ WellFormed s := by
  have hrun := (((Run.empty (P := Call.Fits)).after
    (.insertWire 0 2 4 2) (by decide) (by decide)).after
    (.insertWire 1 2 1 4) (by decide) (by decide)).after
    (.insertWire 3 2 9 2) (by decide) (by decide)
  exact ⟨_, hrun, by decide, hrun.wellFormed_of_fits.1⟩

end Qucs.Wiring
