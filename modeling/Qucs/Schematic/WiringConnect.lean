/-
# A new wire and the wires of its line

At the node that an end of the new wire got, the wires along it are looked at
(`Connects`). One from beyond the end is lengthened, if nothing else is there. One
that begins at the node like the new wire is swallowed if its other end is open;
otherwise the new wire begins only behind it. After that no wire is over the new one
at this end (`Connects.spec`), if no two wires under it follow each other
(`Separate`): behind the first one the second is not looked at.
-/
import Qucs.Schematic.WiringInsert

namespace Qucs.Wiring

open Lib.Segments Segment List

variable {s s' : Sheet} {W W' : Finset ℕ} {loose : List (Element × ℕ)} {w pw pn n m v : ℕ}
  {e : Element} {σ : Side} {a : Axis} {p : ℤ × ℤ}

/-- What can happen with the wires at the node that the end `σ` of `w` got. -/
inductive Connects (σ : Side) (s : Sheet) (W : Finset ℕ) (w : ℕ) : Sheet → Prop
  | stay : (∀ v ∈ W, (s.wire w).isHorizontal = (s.wire v).isHorizontal → ∀ τ,
      (s.wire v).port τ = (s.wire w).port σ → τ = σ.other) → Connects σ s W w s
  | lengthen {pw : ℕ} : pw ∈ W → (s.wire w).isHorizontal = (s.wire pw).isHorizontal →
      (s.wire pw).port σ.other = (s.wire w).port σ → s.count ((s.wire w).port σ) = 2 →
      Connects σ s W w (s.lengthen σ (s.wire w).axis w pw ((s.wire w).port σ))
  | swallow {pw : ℕ} : pw ∈ W → (s.wire w).isHorizontal = (s.wire pw).isHorizontal →
      (s.wire pw).port σ = (s.wire w).port σ → s.count ((s.wire pw).port σ.other) < 2 →
      Connects σ s W w (s.swallow σ pw)
  | shorten {pw : ℕ} : pw ∈ W → (s.wire w).isHorizontal = (s.wire pw).isHorizontal →
      (s.wire pw).port σ = (s.wire w).port σ →
      ¬(s.wire pw).Covers ((s.wire w).endpoint σ.other) →
      Connects σ s W w ((s.removeRef ((s.wire w).port σ) (.wire w)).shorten σ (s.wire w).axis w pw)

/-- Over a node a wire ends. -/
theorem Drawn.port_of_covers (hd : Drawn s W) (hclear : Clear s W) (hv : v ∈ W) (hn : n ∈ s.nodes)
    (hc : (s.wire v).Covers (s.place n)) :
    ∃ τ, (s.wire v).port τ = n ∧ (s.wire v).endpoint τ = s.place n := by
  have hport : ∀ τ, s.place n = (s.wire v).endpoint τ → (s.wire v).port τ = n := fun τ hτ =>
    hd.spot _ (hd.port_mem v hv τ) n hn ((hd.place_port v hv τ).trans hτ.symm)
  obtain h | h | h := (covers_iff (hd.ordered v hv)).mp hc
  · exact ⟨.one, hport _ h, h.symm⟩
  · exact ⟨.two, hport _ h, h.symm⟩
  · exact absurd h (hclear v hv n hn)

theorem Linked.count_pos (h : Linked s W loose) (hn : n ∈ s.nodes) (hv : v ∈ W)
    (hσ : (s.wire v).port σ = n) : 0 < (s.node n).connections.count (.wire v) := by
  have hpos := ends_pos_iff.mpr ⟨hv, σ, hσ⟩
  rw [h n hn]
  omega

/-- No two wires that overlap the new one follow each other. -/
def Separate (s : Sheet) (W : Finset ℕ) (w : ℕ) (σ : Side) : Prop :=
  ∀ u ∈ W, ∀ v ∈ W, (s.wire u).Overlap (s.wire w).toSegment →
    (s.wire v).Overlap (s.wire w).toSegment → (s.wire u).endpoint σ.other ≠ (s.wire v).endpoint σ

/-- What overlaps the new wire does not reach its end `σ`. -/
def Far (s : Sheet) (W : Finset ℕ) (w : ℕ) (σ : Side) : Prop :=
  ∀ v ∈ W, (s.wire v).Overlap (s.wire w).toSegment → ¬(s.wire v).Covers ((s.wire w).endpoint σ)

section Node

variable (h : Entering s W w ((.wire w, (s.wire w).port σ) :: loose)) (hanch : Anchored s w σ)
include h hanch

omit h in
theorem Anchored.endpoint_eq (hd : Drawn s W) (hv : v ∈ W) {τ : Side}
    (hτ : (s.wire v).port τ = (s.wire w).port σ) :
    (s.wire v).endpoint τ = (s.wire w).endpoint σ := by
  rw [← hd.place_port v hv, hτ, hanch.2]

/-- A wire that starts with the new one, along it, overlaps it, and it is the only wire
over the end. -/
theorem Entering.not_covers (hpw : pw ∈ W)
    (hdir : (s.wire w).isHorizontal = (s.wire pw).isHorizontal)
    (hσ : (s.wire pw).port σ = (s.wire w).port σ) (hv : v ∈ W) (hne : v ≠ pw)
    (ho : (s.wire v).Overlap (s.wire w).toSegment) :
    (s.wire pw).Overlap (s.wire w).toSegment ∧ ¬(s.wire v).Covers ((s.wire w).endpoint σ) := by
  have hend := hanch.endpoint_eq h.drawn hpw hσ
  have hpwo : (s.wire pw).Overlap (s.wire w).toSegment :=
    .of_endpoint (h.drawn.ordered pw hpw) h.ordered hdir.symm hend
  refine ⟨hpwo, fun hcov => h.drawn.apart v hv pw hpw hne ?_⟩
  refine .of_covers h.ordered ho hpwo hcov ?_
  rw [← hend]
  exact covers_endpoint (h.drawn.ordered pw hpw) σ

/-- **The second thing with an end of a new wire: the wires of its line.** -/
theorem Connects.spec (hcon : Connects σ s W w s') (hclear : Clear s W) :
    ∃ W', Step σ s W w loose s' W' ∧ Clear s' W' ∧
      (∀ v ∈ W', (s'.wire v).Overlap (s'.wire w).toSegment →
        ¬(s.wire v).Covers ((s.wire w).endpoint σ)) ∧
      (Separate s W w σ → ∀ v ∈ W', (s'.wire v).Overlap (s'.wire w).toSegment →
        ¬(s.wire v).Covers ((s'.wire w).endpoint σ)) := by
  have hd := h.drawn
  cases hcon with
  | stay hstay =>
    have hnot : Far s W w σ := fun v hv ho hcov => by
      obtain ⟨τ, hτ, hend⟩ := hd.port_of_covers hclear hv hanch.1 (hanch.2.symm ▸ hcov)
      have hdir := ho.isHorizontal_eq (hd.ordered v hv) h.ordered
      obtain rfl := hstay v hv hdir.symm τ hτ
      exact not_overlap_of_endpoint (hd.ordered v hv) h.ordered (hend.trans hanch.2) ho
    have hstep : Step σ s W w loose s W :=
      { entering := h
        anchored := hanch
        other_port := rfl
        other_end := rfl
        place := fun _ _ => rfl
        lone := fun _ hp => hp
        kept := fun v hv ho => ⟨hv, rfl, ho⟩ }
    exact ⟨W, hstep, hclear, hnot, fun _ => hnot⟩
  | @lengthen pw hpw hdir hσ htwo =>
    obtain ⟨honly, hzero⟩ := h.linked.onlyAt_of_count_two hanch.1 hpw hσ htwo
    have hcov : (s.wire pw).Covers ((s.wire w).endpoint σ) := by
      rw [← hanch.endpoint_eq hd hpw hσ]
      exact covers_endpoint (hd.ordered pw hpw) _
    have hloose : ∀ m, m ≠ (s.wire w).port σ → ∀ e,
        loose.count (e, m) = ((.wire w, (s.wire w).port σ) :: loose).count (e, m) :=
      fun m hm e => (count_cons_of_snd_ne hm).symm
    have hstep := Entering.lengthen hpw hdir hcov h hσ honly hloose hzero
      fun p hp => h.loose_mem p (mem_cons_of_mem _ hp)
    have hnot : ∀ v ∈ W.erase pw, ¬(s.wire v).Covers ((s.wire w).endpoint σ) :=
      fun v hv hcov => by
        obtain ⟨τ, hτ, -⟩ := hd.port_of_covers hclear (Finset.mem_of_mem_erase hv) hanch.1
          (hanch.2.symm ▸ hcov)
        exact honly.wire v hv τ hτ
    refine ⟨_, hstep, fun v hv m hm hvm => ?_, fun v hv _ => hnot v hv, fun _ v hv ho hcov' => ?_⟩
    · have hv' := Finset.mem_of_mem_erase hv
      rw [place_lengthen, wire_lengthen_of_ne (ne_of_mem_of_not_mem hv' h.new)] at hvm
      exact hclear v hv' m (mem_of_mem_erase hm) hvm
    · obtain ⟨-, -, ho⟩ := hstep.kept v hv ho
      rw [toSegment_lengthen hdir hcov h.ordered (hd.ordered pw hpw),
        endpoint_stretch] at hcov'
      exact hnot v hv (ho.covers_of_stretch h.ordered (hd.ordered pw hpw) hcov hcov')
  | @swallow pw hpw hdir hσ hlt =>
    have hpos := (h.linked.count_pos (hd.port_mem pw hpw σ.other) hpw rfl).trans_le
      count_le_length
    obtain ⟨honly, hzero⟩ := h.linked.onlyAt_of_count_one (hd.port_mem pw hpw σ.other) hpw rfl
      (le_antisymm (Nat.lt_succ_iff.mp hlt) hpos)
    have hnot : ∀ v ∈ W.erase pw, (s.wire v).Overlap (s.wire w).toSegment →
        ¬(s.wire v).Covers ((s.wire w).endpoint σ) := fun v hv ho =>
      (h.not_covers hanch hpw hdir hσ (Finset.mem_of_mem_erase hv) (Finset.ne_of_mem_erase hv) ho).2
    refine ⟨_, h.swallow hanch honly hpw hzero, fun v hv m hm hvm => ?_, hnot, fun _ => hnot⟩
    rw [place_swallow] at hvm
    exact hclear v (Finset.mem_of_mem_erase hv) m (mem_of_mem_erase hm) hvm
  | @shorten pw hpw hdir hσ hnot =>
    have hend := hanch.endpoint_eq hd hpw hσ
    have hcov : (s.wire pw).Covers ((s.wire w).endpoint σ) := by
      rw [← hend]
      exact covers_endpoint (hd.ordered pw hpw) σ
    have hstep := Entering.shorten (s := s.removeRef ((s.wire w).port σ) (.wire w)) hpw hdir hcov
      h.removeRef hnot
    have hstep' : Step σ s W w loose _ W := { hstep with
      place := fun m hm => (hstep.place m hm).trans place_removeRef }
    have hseg := toSegment_shorten hdir hcov h.ordered (hd.ordered pw hpw)
    have hkeep : ∀ v ∈ W, ((s.removeRef ((s.wire w).port σ) (.wire w)).shorten σ (s.wire w).axis
        w pw).wire v = s.wire v := fun v hv => wire_eq_of_mem h.new hv
    have hclip : ∀ v ∈ W, (s.wire v).Overlap ((s.wire w).clip (s.wire pw).toSegment σ) →
        v ≠ pw ∧ (s.wire v).Overlap (s.wire w).toSegment := by
      refine fun v hv ho => ⟨?_, ho.of_clip h.ordered (hd.ordered pw hpw) hcov hnot⟩
      rintro rfl
      exact not_overlap_clip h.ordered (hd.ordered v hv) hcov hnot ho
    refine ⟨W, hstep', fun v hv m hm hvm => hclear v hv m hm ?_, fun v hv ho => ?_,
      fun hsep v hv ho hcov' => ?_⟩
    · rwa [hkeep v hv, place_shorten, place_removeRef] at hvm
    · rw [hkeep v hv] at ho
      obtain ⟨hne, hvw⟩ := hclip v hv (hseg ▸ ho)
      exact (h.not_covers hanch hpw hdir hσ hv hne hvw).2
    · rw [hkeep v hv] at ho
      obtain ⟨hne, hvw⟩ := hclip v hv (hseg ▸ ho)
      refine hsep pw hpw v hv (h.not_covers hanch hpw hdir hσ hv hne hvw).1 hvw ?_
      refine endpoint_eq_of_covers (hd.ordered pw hpw) (hd.ordered v hv)
        ((hvw.isHorizontal_eq (hd.ordered v hv) h.ordered).trans hdir)
        (hd.apart v hv pw hpw hne) ?_
      rw [← endpoint_clip]
      exact hseg ▸ hcov'

end Node

end Qucs.Wiring
