/-
# The functions for the two ends

`insertWireNode1`, `insertWireNode2` and the loops of `connectHWires1` and its three
relatives do what `Arrives` and `Connects` say. The functions for the first end also
find out whether the new wire lies within another one; then it is dropped. Those for
the second end need not: what is over the wire there does not reach its beginning.
-/
import Qucs.Schematic.WiringConnect

namespace Qucs.Wiring

open Lib.Segments List Segment Sheet

variable {s s' : Sheet} {W W' : Finset ℕ} {loose : List (Element × ℕ)} {w pw pn n m v : ℕ}
  {e : Element} {σ : Side} {a : Axis} {p : ℤ × ℤ} {x y : ℤ}

/-- Inside a wire the branch is the one of its axis. -/
theorem branch_eq (hin : (s.wire pw).Inside (x, y)) : s.branch x pw = (s.wire pw).axis := by
  unfold branch axis isHorizontal
  unfold Segment.Inside at hin
  split_ifs with h1 h2 h2
  · simp only [decide_eq_true_eq] at h2
    omega
  · rfl
  · rfl
  · simp only [decide_eq_true_eq] at h2
    omega

/-- The first end: the wire lies within another one, or the end gets its node. -/
theorem insertWireNode1_spec (h : Entering s W w loose) :
    s.insertWireNode1 w = (0, s) ∨
      ∃ r s', s.insertWireNode1 w = (r, s') ∧ r ≠ 0 ∧ Arrives .one s W w s' := by
  have hd := h.drawn
  unfold insertWireNode1
  dsimp only
  cases hnode : s.nodeAt (s.wire w).x1 (s.wire w).y1 with
  | some pn =>
    obtain ⟨hpn, hplace⟩ := nodeAt_eq_some hnode
    exact .inr ⟨2, _, rfl, by decide, .node hpn hplace⟩
  | none =>
    have hfree : ∀ m ∈ s.nodes, s.place m ≠ (s.wire w).endpoint .one := fun m hm =>
      nodeAt_eq_none hnode hm
    cases hwire : s.wireAt (s.wire w).x1 (s.wire w).y1 with
    | none =>
      exact .inr ⟨1, _, rfl, by decide, .free hfree fun v hv =>
        wireAt_eq_none hd h.listed hwire hv⟩
    | some ptr2 =>
      obtain ⟨hptr2, hcov⟩ := wireAt_eq_some hd h.listed hwire
      have hin := hd.inside_of_covers hptr2 hfree hcov
      dsimp only
      split_ifs with hdir hwithin hone
      · exact .inl rfl
      · refine .inr ⟨2, _, rfl, by decide, ?_⟩
        rw [branch_eq hin, axis_eq_iff.mpr hdir]
        exact .lengthen hptr2 hin hdir.symm hone
      · refine .inr ⟨2, _, rfl, by decide, ?_⟩
        rw [branch_eq hin, axis_eq_iff.mpr hdir] at hwithin ⊢
        refine .shorten hptr2 hin hdir.symm fun htwo => hwithin ?_
        exact (coord_le_coord_iff h.ordered (hd.ordered ptr2 hptr2) hdir.symm hcov).mpr htwo
      · exact .inr ⟨2, _, rfl, by decide, .split hfree hptr2 hin hdir⟩

/-- The second end, if what overlaps the wire does not reach its beginning. -/
theorem insertWireNode2_spec (h : Entering s W w loose) (hfar : Far s W w .one) :
    ∃ r s', s.insertWireNode2 w = (r, s') ∧ r ≠ 0 ∧ Arrives .two s W w s' := by
  have hd := h.drawn
  unfold insertWireNode2
  dsimp only
  cases hnode : s.nodeAt (s.wire w).x2 (s.wire w).y2 with
  | some pn =>
    obtain ⟨hpn, hplace⟩ := nodeAt_eq_some hnode
    exact ⟨2, _, rfl, by decide, .node hpn hplace⟩
  | none =>
    have hfree : ∀ m ∈ s.nodes, s.place m ≠ (s.wire w).endpoint .two := fun m hm =>
      nodeAt_eq_none hnode hm
    cases hwire : s.wireAt (s.wire w).x2 (s.wire w).y2 with
    | none =>
      exact ⟨1, _, rfl, by decide, .free hfree fun v hv =>
        wireAt_eq_none hd h.listed hwire hv⟩
    | some ptr2 =>
      obtain ⟨hptr2, hcov⟩ := wireAt_eq_some hd h.listed hwire
      have hin := hd.inside_of_covers hptr2 hfree hcov
      dsimp only
      split_ifs with hdir hone
      · refine ⟨2, _, rfl, by decide, ?_⟩
        rw [branch_eq hin, axis_eq_iff.mpr hdir]
        exact .lengthen hptr2 hin hdir.symm hone
      · refine ⟨2, _, rfl, by decide, ?_⟩
        rw [branch_eq hin, axis_eq_iff.mpr hdir]
        refine .shorten hptr2 hin hdir.symm (hfar ptr2 hptr2 ?_)
        exact .of_inside h.ordered hdir hin (covers_endpoint h.ordered .two)
      · exact ⟨2, _, rfl, by decide, .split hfree hptr2 hin hdir⟩

/-! ## The wires at the node of an end -/

/-- Before the new wire the node has the ends that are there. -/
theorem Entering.mem_iff (h : Entering s W w ((.wire w, (s.wire w).port σ) :: loose))
    (hanch : Anchored s w σ) {l : List Element}
    (hl : (s.node ((s.wire w).port σ)).connections = l ++ [.wire w])
    (hzero : ∀ e, loose.count (e, (s.wire w).port σ) = 0) (v : ℕ) :
    .wire v ∈ l ↔ v ∈ W ∧ ∃ τ, (s.wire v).port τ = (s.wire w).port σ := by
  have hcount := h.linked _ hanch.1 (.wire v)
  simp only [hl, count_append, count_cons, count_nil, hzero, beq_iff_eq,
    Prod.mk.injEq, and_true] at hcount
  have hends : l.count (.wire v) = s.ends W (.wire v) ((s.wire w).port σ) := by omega
  rw [← count_pos_iff, hends, ends_pos_iff]

/-- The wires among `es` along the new one come from beyond its end. -/
def Beyond (σ : Side) (s : Sheet) (w : ℕ) (es : List Element) : Prop :=
  ∀ v, .wire v ∈ es → (s.wire w).isHorizontal = (s.wire v).isHorizontal →
    ∀ τ, (s.wire v).port τ = (s.wire w).port σ → τ = σ.other

/-- One of `es` is dealt with, or all are passed. -/
def Passed (σ : Side) (s : Sheet) (W : Finset ℕ) (w : ℕ) (es : List Element) (s' : Sheet) : Prop :=
  Connects σ s W w s' ∨ s' = s ∧ Beyond σ s w es

theorem Passed.cons {es : List Element} (h : Passed σ s W w es s')
    (he : ∀ v, e = .wire v → (s.wire w).isHorizontal = (s.wire v).isHorizontal →
      ∀ τ, (s.wire v).port τ = (s.wire w).port σ → τ = σ.other) : Passed σ s W w (e :: es) s' := by
  refine h.imp id fun ⟨heq, hall⟩ => ⟨heq, fun v hv => ?_⟩
  cases mem_cons.mp hv with
  | inl hv => exact he v hv.symm
  | inr hv => exact hall v hv

theorem Passed.cons_across {es : List Element} (h : Passed σ s W w es s')
    (hax : (s.wire pw).axis ≠ (s.wire w).axis) : Passed σ s W w (.wire pw :: es) s' :=
  h.cons fun v hv hdir => by
    cases hv
    exact absurd (axis_eq_iff.mpr hdir).symm hax

theorem connectLoop1_spec (h : Entering s W w ((.wire w, (s.wire w).port .one) :: loose))
    (hanch : Anchored s w .one) (es : List Element)
    (hes : ∀ v, .wire v ∈ es → v ∈ W ∧ ∃ τ, (s.wire v).port τ = (s.wire w).port .one) :
    s.connectLoop1 (s.wire w).axis w (s.wire w).port1 es =
        (false, s.removeRef (s.wire w).port1 (.wire w)) ∨
      ∃ s', s.connectLoop1 (s.wire w).axis w (s.wire w).port1 es = (true, s') ∧
        Passed .one s W w es s' := by
  have hd := h.drawn
  induction es with
  | nil => exact .inr ⟨s, rfl, .inr ⟨rfl, fun v hv => absurd hv not_mem_nil⟩⟩
  | cons e es ih =>
    specialize ih fun v hv => hes v (mem_cons_of_mem e hv)
    cases e with
    | component c =>
      rw [connectLoop1]
      exact ih.imp id fun ⟨s', hs', hpass⟩ => ⟨s', hs', hpass.cons fun v hv => by cases hv⟩
    | wire pw =>
      obtain ⟨hpw, τ, hτ⟩ := hes pw mem_cons_self
      rw [connectLoop1]
      by_cases hax : (s.wire pw).axis = (s.wire w).axis
      · have hdir := axis_eq_iff.mp hax.symm
        have hlt := fun τ hτ => coord_one_lt_iff h.ordered (hd.ordered pw hpw) hdir
          (hanch.endpoint_eq hd hpw (τ := τ) hτ)
        rw [if_neg (not_not.mpr hax)]
        split_ifs with hbefore hcount hwithin hopen
        · exact ih.imp id fun ⟨s', hs', hpass⟩ => ⟨s', hs', hpass.cons fun v hv _ τ hτ => by
            cases hv
            exact (hlt τ hτ).mp hbefore⟩
        · obtain rfl := (hlt τ hτ).mp hbefore
          exact .inr ⟨_, rfl, .inl (.lengthen hpw hdir hτ (not_not.mp hcount))⟩
        · exact .inl rfl
        · cases τ with
          | one => exact .inr ⟨_, rfl, .inl (.swallow hpw hdir hτ hopen)⟩
          | two => exact absurd ((hlt .two hτ).mpr rfl) hbefore
        · cases τ with
          | one =>
            refine .inr ⟨_, rfl, .inl (.shorten hpw hdir hτ fun htwo => hwithin ?_)⟩
            refine (coord_le_coord_iff h.ordered (hd.ordered pw hpw) hdir ?_).mpr htwo
            rw [← hanch.endpoint_eq hd hpw hτ]
            exact covers_endpoint (hd.ordered pw hpw) .one
          | two => exact absurd ((hlt .two hτ).mpr rfl) hbefore
      · rw [if_pos hax]
        exact ih.imp id fun ⟨s', hs', hpass⟩ => ⟨s', hs', hpass.cons_across hax⟩

theorem connectLoop2_spec (h : Entering s W w ((.wire w, (s.wire w).port .two) :: loose))
    (hanch : Anchored s w .two)
    (hfar : Far s W w .one) (es : List Element)
    (hes : ∀ v, .wire v ∈ es → v ∈ W ∧ ∃ τ, (s.wire v).port τ = (s.wire w).port .two) :
    Passed .two s W w es (s.connectLoop2 (s.wire w).axis w (s.wire w).port2 es) := by
  have hd := h.drawn
  induction es with
  | nil => exact .inr ⟨rfl, fun v hv => absurd hv not_mem_nil⟩
  | cons e es ih =>
    specialize ih fun v hv => hes v (mem_cons_of_mem e hv)
    cases e with
    | component c =>
      exact ih.cons fun v hv => by cases hv
    | wire pw =>
      obtain ⟨hpw, τ, hτ⟩ := hes pw mem_cons_self
      rw [connectLoop2]
      by_cases hax : (s.wire pw).axis = (s.wire w).axis
      · have hdir := axis_eq_iff.mp hax.symm
        have hgt := fun τ hτ => coord_two_lt_iff h.ordered (hd.ordered pw hpw) hdir
          (hanch.endpoint_eq hd hpw (τ := τ) hτ)
        rw [if_neg (not_not.mpr hax)]
        split_ifs with hbeyond hcount hopen
        · exact ih.cons fun v hv _ τ hτ => by
            cases hv
            exact (hgt τ hτ).mp hbeyond
        · obtain rfl := (hgt τ hτ).mp hbeyond
          exact .inl (.lengthen hpw hdir hτ (not_not.mp hcount))
        · cases τ with
          | one => exact absurd ((hgt .one hτ).mpr rfl) hbeyond
          | two => exact .inl (.swallow hpw hdir hτ hopen)
        · cases τ with
          | one => exact absurd ((hgt .one hτ).mpr rfl) hbeyond
          | two =>
            refine .inl (.shorten hpw hdir hτ (hfar pw hpw ?_))
            exact .of_endpoint (hd.ordered pw hpw) h.ordered hdir.symm (hanch.endpoint_eq hd hpw hτ)
      · rw [if_pos hax]
        exact ih.cons_across hax

theorem Passed.connects {es : List Element} (h : Passed σ s W w es s')
    (hes : ∀ v, .wire v ∈ es ↔ v ∈ W ∧ ∃ τ, (s.wire v).port τ = (s.wire w).port σ) :
    Connects σ s W w s' := by
  obtain h | ⟨rfl, h⟩ := h
  · exact h
  · exact .stay fun v hv hdir τ hτ => h v ((hes v).mpr ⟨hv, τ, hτ⟩) hdir τ hτ

/-- At the first end the wire may still turn out to lie within another one. -/
theorem connectWires1_spec (h : Entering s W w ((.wire w, (s.wire w).port .one) :: loose))
    (hanch : Anchored s w .one) (hlast : EndsWith s w ((s.wire w).port .one))
    (hzero : ∀ e, loose.count (e, (s.wire w).port .one) = 0) :
    s.connectWires1 (s.wire w).axis w = (false, s.removeRef (s.wire w).port1 (.wire w)) ∨
      ∃ s', s.connectWires1 (s.wire w).axis w = (true, s') ∧ Connects .one s W w s' := by
  obtain ⟨l, hl⟩ := hlast
  have hes := fun v => mem_reverse.trans (h.mem_iff hanch hl hzero v)
  unfold connectWires1
  simp only [Wire.port] at hl
  dsimp only
  rw [hl, dropLast_concat]
  exact (connectLoop1_spec h hanch l.reverse fun v hv => (hes v).mp hv).imp_right
    (.imp fun _ => .imp_right (·.connects hes))

theorem connectWires2_spec (h : Entering s W w ((.wire w, (s.wire w).port .two) :: loose))
    (hanch : Anchored s w .two) (hlast : EndsWith s w ((s.wire w).port .two))
    (hzero : ∀ e, loose.count (e, (s.wire w).port .two) = 0)
    (hfar : Far s W w .one) :
    Connects .two s W w (s.connectWires2 (s.wire w).axis w) := by
  obtain ⟨l, hl⟩ := hlast
  have hes := fun v => mem_reverse.trans (h.mem_iff hanch hl hzero v)
  unfold connectWires2
  simp only [Wire.port] at hl
  dsimp only
  rw [hl, dropLast_concat]
  exact (connectLoop2_spec h hanch hfar l.reverse fun v hv => (hes v).mp hv).connects hes

end Qucs.Wiring
