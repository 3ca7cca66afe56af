/-
# A new wire is cut at the nodes it covers

The last loop of `insertWire` goes through the list of wires from the new one on, and for
each through the list of nodes. A piece that is cut off is appended to the list of
wires and so comes up later. Since nothing overlaps the new wire, no wire along it
ends at a node inside it (`Covering.along_eq_none`), and the branches that delete nodes
during the loop are not taken.

The loop ends since the pieces are together as long as the wire was: what remains is
their length times the nodes, less the nodes done (`remaining`).
-/
import Mathlib
import Qucs.Schematic.WiringEnds

namespace Qucs.Wiring

open Lib.Segments List

variable {s s' : Sheet} {W : Finset ℕ} {done rest : List ℕ} {w pw pn n m v i : ℕ}

theorem Wire.coversNode_iff {V : Wire} (hV : V.Ordered) {N : Node} :
    V.coversNode N ↔ V.Inside (N.cx, N.cy) := by
  unfold Wire.coversNode Segment.Inside
  unfold Segment.Ordered at hV
  split_ifs <;> simp <;> omega

/-- The loop is at the wire `pw` and the node `i`. The wires before are done, the nodes
before are done for `pw`. -/
structure Covering (s : Sheet) (W : Finset ℕ) (done : List ℕ) (pw : ℕ) (rest : List ℕ) (i : ℕ) :
    Prop where
  drawn : Drawn s W
  linked : Linked s W []
  listed : Listed s W
  wires : s.wires = done ++ pw :: rest
  done : ∀ v ∈ done, ∀ m ∈ s.nodes, ¬(s.wire v).Inside (s.place m)
  passed : ∀ m ∈ s.nodes.take i, ¬(s.wire pw).Inside (s.place m)
  bound : i ≤ s.nodes.length

/-- The length of the wires from `pw` on, and the nodes still to come. -/
def remaining (s : Sheet) (pw : ℕ) (rest : List ℕ) (i : ℕ) : ℕ :=
  ((pw :: rest).map fun v => (s.wire v).length).sum * (s.nodes.length + 1) - i

namespace Covering

variable (h : Covering s W done pw rest i)
include h

theorem mem : pw ∈ W := (h.listed.2 pw).mp (by
  rw [h.wires]
  exact mem_append_right _ mem_cons_self)

theorem nodup : (done ++ pw :: rest).Nodup := h.wires ▸ h.listed.1

theorem rest_mem (hv : v ∈ rest) : v ∈ W := (h.listed.2 v).mp (by
  rw [h.wires]
  exact mem_append_right _ (mem_cons_of_mem _ hv))

theorem done_mem (hv : v ∈ done) : v ∈ W := (h.listed.2 v).mp (by
  rw [h.wires]
  exact mem_append_left _ hv)

/-- No wire along `pw` ends at a node inside it. -/
theorem along_eq_none (hpn : pn ∈ s.nodes) (hin : (s.wire pw).Inside (s.place pn)) :
    s.along pw pn = none := by
  refine findSome?_eq_none_iff.mpr fun e he => ?_
  cases e with
  | component c => rfl
  | wire nw =>
    refine if_neg fun hdir => ?_
    have hpos : 0 < s.ends W (.wire nw) pn := by
      have hcount := h.linked pn hpn (.wire nw)
      rw [count_nil, Nat.add_zero] at hcount
      rw [← hcount]
      exact count_pos_iff.mpr he
    obtain ⟨hnw, τ, hτ⟩ := ends_pos_iff.mp hpos
    have hplace : s.place pn = (s.wire nw).endpoint τ := hτ ▸ h.drawn.place_port nw hnw τ
    by_cases hne : nw = pw
    · exact hin.ne_endpoint τ (hne ▸ hplace)
    · refine h.drawn.not_covers h.mem hnw hne hdir.symm hin ?_
      rw [hplace]
      exact Segment.covers_endpoint (h.drawn.ordered nw hnw) τ

theorem next (hi : s.nodes[i]? = some pn) (hout : ¬(s.wire pw).Inside (s.place pn)) :
    Covering s W done pw rest (i + 1) :=
  { h with
    passed := fun m hm => by
      rw [take_add_one, hi] at hm
      cases mem_append.mp hm with
      | inl hm => exact h.passed m hm
      | inr hm =>
        rw [Option.toList_some, mem_singleton] at hm
        exact hm ▸ hout
    bound := (List.getElem?_eq_some_iff.mp hi).1 }

theorem cut (hi : s.nodes[i]? = some pn) (hin : (s.wire pw).Inside (s.place pn)) :
    Covering (s.cut pw pn pn) (insert s.fresh W) done pw (rest ++ [s.fresh]) (i + 1) := by
  have hd := h.drawn
  have hpn := mem_of_getElem? hi
  refine
    { drawn := hd.cut hin h.mem hpn
      linked := h.linked.cut hin hd h.mem
      listed := ?_
      wires := by rw [wires_cut hin, h.wires, append_assoc, cons_append]
      done := fun v hv m hm hvm => ?_
      passed := fun m hm hvm => ?_
      bound := nodes_cut hin ▸ (List.getElem?_eq_some_iff.mp hi).1 }
  · have hlist := h.listed.appendWire hd.fresh_notMem
    rw [Listed, Sheet.appendWire] at hlist
    rwa [Listed, wires_cut hin]
  · have hne : v ≠ pw := fun heq => by
      have hdis := (nodup_append.mp h.nodup).2.2
      exact hdis v hv pw mem_cons_self heq
    rw [wire_cut_of_ne hin hne (hd.mem_ne_fresh (h.done_mem hv)), place_cut hin] at hvm
    exact h.done v hv m (nodes_cut hin ▸ hm) hvm
  · rw [wire_cut_self hin, place_cut hin] at hvm
    obtain ⟨hvm, hne⟩ := hin.of_onFrom hvm
    rw [nodes_cut hin, take_add_one, hi] at hm
    cases mem_append.mp hm with
    | inl hm => exact h.passed m hm hvm
    | inr hm =>
      rw [Option.toList_some, mem_singleton] at hm
      exact hne (by rw [hm])

theorem wire_done (hi : s.nodes[i]? = none) :
    ∀ v ∈ done ++ [pw], ∀ m ∈ s.nodes, ¬(s.wire v).Inside (s.place m) := by
  intro v hv m hm
  cases mem_append.mp hv with
  | inl hv => exact h.done v hv m hm
  | inr hv =>
    rw [mem_singleton.mp hv]
    refine h.passed m ?_
    rwa [take_of_length_le (getElem?_eq_none_iff.mp hi)]

theorem next_wire : s.wires[s.wires.idxOf pw + 1]? = rest.head? := by
  have hnot : pw ∉ done := fun hmem =>
    (nodup_append.mp h.nodup).2.2 pw hmem pw mem_cons_self rfl
  rw [h.wires, idxOf_append_of_notMem hnot, idxOf_cons_self, Nat.add_zero,
    getElem?_append_right (Nat.le_succ _)]
  cases rest <;> simp

theorem remaining_cut (hin : (s.wire pw).Inside (s.place pn)) :
    remaining (s.cut pw pn pn) pw (rest ++ [s.fresh]) (i + 1) = remaining s pw rest (i + 1) := by
  have hd := h.drawn
  have hnot : ∀ v ∈ rest, v ≠ pw := fun v hv heq =>
    (nodup_cons.mp (nodup_append.mp h.nodup).2.1).1 (heq ▸ hv)
  have hrest : rest.map (fun v => ((s.cut pw pn pn).wire v).length) =
      rest.map fun v => (s.wire v).length :=
    map_congr_left fun v hv => by
      rw [wire_cut_of_ne hin (hnot v hv) (hd.mem_ne_fresh (h.rest_mem hv))]
  have hlen := hin.length_add
  unfold remaining
  rw [nodes_cut hin, map_cons, map_append, sum_cons, sum_append, hrest,
    map_singleton, sum_singleton, wire_cut_self hin,
    wire_cut_fresh hin (hd.mem_ne_fresh h.mem), map_cons, sum_cons, ← hlen]
  dsimp only
  congr 2
  omega

theorem length_pos : 0 < ((pw :: rest).map fun v => (s.wire v).length).sum := by
  have hpos := (h.drawn.ordered pw h.mem).length_pos
  rw [map_cons, sum_cons]
  omega

theorem remaining_next (hi : s.nodes[i]? = some pn) :
    remaining s pw rest (i + 1) < remaining s pw rest i := by
  have hlt := (List.getElem?_eq_some_iff.mp hi).1
  have hle := Nat.le_mul_of_pos_left (s.nodes.length + 1) h.length_pos
  unfold remaining
  omega

theorem remaining_next_wire {next : ℕ} {rest' : List ℕ} (hrest : rest = next :: rest') :
    remaining s next rest' 0 < remaining s pw rest i := by
  have hpos := (h.drawn.ordered pw h.mem).length_pos
  have hle := Nat.le_mul_of_pos_left (s.nodes.length + 1) hpos
  have hbound := h.bound
  subst hrest
  unfold remaining
  generalize hlater : ((next :: rest').map fun v => (s.wire v).length).sum = later
  rw [map_cons, sum_cons, hlater, Nat.add_mul]
  omega

end Covering

/-- The loop ends with a sound schematic; with less fuel than it needs it has no
result. -/
def Finishes (s : Sheet) (pw i : ℕ) : Prop :=
  ∃ s' W', Sound s' W' ∧ ∃ K, ∀ fuel, Sheet.cover fuel pw i s = if K ≤ fuel then some s' else none

theorem Finishes.of_round {pw' i' : ℕ} (h : Finishes s' pw' i')
    (hround : ∀ fuel, Sheet.cover (fuel + 1) pw i s = Sheet.cover fuel pw' i' s') :
    Finishes s pw i := by
  obtain ⟨s'', W', hs'', K, hK⟩ := h
  refine ⟨s'', W', hs'', K + 1, fun fuel => ?_⟩
  cases fuel with
  | zero => rfl
  | succ fuel => simp only [hround, hK, Nat.add_le_add_iff_right]

/-- **The loop over the covered nodes ends, and then no node lies inside a wire.** -/
theorem Covering.finishes (h : Covering s W done pw rest i) : Finishes s pw i := by
  induction hr : remaining s pw rest i using Nat.strong_induction_on
    generalizing s W done pw rest i with
  | _ r ih =>
    subst hr
    cases hi : s.nodes[i]? with
    | none =>
      have hdone := h.wire_done hi
      cases hrest : rest with
      | nil =>
        refine ⟨s, W, ⟨h.drawn, h.linked, h.listed, fun v hv => hdone v ?_⟩, 1, fun fuel => ?_⟩
        · have hmem := (h.listed.2 v).mpr hv
          rwa [h.wires, hrest] at hmem
        · cases fuel with
          | zero => rfl
          | succ fuel => simp [Sheet.cover, hi, h.next_wire, hrest]
      | cons next rest' =>
        have hnext : Covering s W (done ++ [pw]) next rest' 0 :=
          { h with
            wires := by rw [h.wires, hrest, append_assoc, singleton_append]
            done := hdone
            passed := fun m hm => absurd hm (by simp)
            bound := Nat.zero_le _ }
        refine (ih _ (h.remaining_next_wire hrest) hnext rfl).of_round fun fuel => ?_
        simp [Sheet.cover, hi, h.next_wire, hrest]
    | some pn =>
      have hcovers := Wire.coversNode_iff (h.drawn.ordered pw h.mem) (N := s.node pn)
      by_cases hin : (s.wire pw).Inside (s.place pn)
      · have hlt := h.remaining_next hi
        rw [← h.remaining_cut hin] at hlt
        refine (ih _ hlt (h.cut hi hin) rfl).of_round fun fuel => ?_
        have hnone := h.along_eq_none (mem_of_getElem? hi) hin
        simp [Sheet.cover, hi, hcovers.mpr hin, Sheet.coverNode, hnone]
      · refine (ih _ (h.remaining_next hi) (h.next hi hin) rfl).of_round fun fuel => ?_
        have hfalse : (s.wire pw).coversNode (s.node pn) = false := by
          rw [← Bool.not_eq_true, hcovers]
          exact hin
        simp [Sheet.cover, hi, hfalse]

end Qucs.Wiring
