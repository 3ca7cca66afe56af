/-
# Component ports put in, wires taken out

A new node cuts the first wire in the list that it lies on (`Sound.insertPort`); at a
crossing the other wire stays as it is, so the place has to be inside one wire at most
(`Lone`).

A wire can always be taken out (`Sound.deleteWire`). At each of its nodes one of three
things happens (`release_settled`): the node goes, two wires become one, or nothing.
Two wires of one line at a node are one before and one after it, since they do not
overlap (`Drawn.meet`), so joining them is right whichever comes first in the list.
-/
import Qucs.Schematic.WiringSteps

namespace Qucs.Wiring

open Lib.Segments List Sheet
open Finset (mem_erase notMem_erase insert_erase)

variable {s : Sheet} {W : Finset ℕ} {loose : List (Element × ℕ)} {w pw pn n m v c : ℕ}
  {e : Element} {σ : Side} {a : Axis} {x y : ℤ}

/-- The wires of the schematic are those of `W`, and everything fits. -/
structure Sound (s : Sheet) (W : Finset ℕ) : Prop where
  drawn : Drawn s W
  linked : Linked s W []
  listed : Listed s W
  clear : Clear s W

/-- The place is inside one wire at most. -/
def Lone (s : Sheet) (W : Finset ℕ) (p : ℤ × ℤ) : Prop :=
  ∀ u ∈ W, ∀ v ∈ W, (s.wire u).Inside p → (s.wire v).Inside p → u = v

/-! ## What is found at a place -/

theorem Wire.hits_iff {V : Wire} (hV : V.Ordered) : V.hits x y ↔ V.Covers (x, y) := by
  unfold Wire.hits Segment.Covers
  unfold Segment.Ordered at hV
  split_ifs <;> simp <;> omega

theorem nodeAt_eq_some (h : s.nodeAt x y = some pn) : pn ∈ s.nodes ∧ s.place pn = (x, y) := by
  have hat := find?_some h
  simp only [decide_eq_true_eq] at hat
  exact ⟨mem_of_find?_eq_some h, Prod.ext hat.1 hat.2⟩

theorem nodeAt_eq_none (h : s.nodeAt x y = none) (hm : m ∈ s.nodes) : s.place m ≠ (x, y) := by
  have hat := find?_eq_none.mp h m hm
  simp only [decide_eq_true_eq] at hat
  exact fun heq => hat ⟨congrArg Prod.fst heq, congrArg Prod.snd heq⟩

theorem wireAt_eq_some (hd : Drawn s W) (hlist : Listed s W) (h : s.wireAt x y = some pw) :
    pw ∈ W ∧ (s.wire pw).Covers (x, y) := by
  have hpw := (hlist.2 pw).mp (mem_of_find?_eq_some h)
  have hat := find?_some h
  exact ⟨hpw, (Wire.hits_iff (hd.ordered pw hpw)).mp hat⟩

theorem wireAt_eq_none (hd : Drawn s W) (hlist : Listed s W) (h : s.wireAt x y = none)
    (hv : v ∈ W) : ¬(s.wire v).Covers (x, y) := by
  have hat := find?_eq_none.mp h v ((hlist.2 v).mpr hv)
  rwa [Wire.hits_iff (hd.ordered v hv)] at hat

theorem Drawn.inside_of_covers (hd : Drawn s W) (hv : v ∈ W) {p : ℤ × ℤ}
    (hfree : ∀ m ∈ s.nodes, s.place m ≠ p) (hc : (s.wire v).Covers p) : (s.wire v).Inside p := by
  obtain h | h | h := (Segment.covers_iff (hd.ordered v hv)).mp hc
  · exact absurd (hd.place_port v hv .one) (h ▸ hfree _ (hd.port_mem v hv .one))
  · exact absurd (hd.place_port v hv .two) (h ▸ hfree _ (hd.port_mem v hv .two))
  · exact h

/-! ## A new node -/

theorem Sound.newNode (h : Sound s W) (hfree : ∀ m ∈ s.nodes, s.place m ≠ (x, y)) :
    Drawn ((s.newNode x y).append s.fresh e) W ∧
      Linked ((s.newNode x y).append s.fresh e) W [(e, s.fresh)] :=
  ⟨(h.drawn.newNode hfree).append, (h.linked.newNode h.drawn (by simp)).append⟩

/-- A node inside a wire after a new one is made: the new one, in a wire over its
place. -/
theorem Clear.inside_newNode (h : Clear s W) (hd : Drawn s W) (hv : v ∈ W)
    (hm : m ∈ (s.newNode x y).nodes) (hin : (s.wire v).Inside ((s.newNode x y).place m)) :
    m = s.fresh ∧ (s.wire v).Inside (x, y) := by
  cases mem_nodes_newNode.mp hm with
  | inl hm =>
    rw [place_newNode (hd.ne_fresh hm)] at hin
    exact absurd hin (h v hv m hm)
  | inr hm =>
    rw [hm, place_newNode_self] at hin
    exact ⟨hm, hin⟩

theorem Listed.splitWire (h : Listed s W) (hd : Drawn s W) :
    Listed (s.splitWire pw pn) (insert s.fresh W) := by
  have hlist := h.appendWire hd.fresh_notMem
  exact hlist

/-! ## Ports of components -/

theorem Linked.addPort (h : Linked s W ((.component c, n) :: loose)) :
    Linked { s with ports := s.ports ++ [(c, n)] } W loose := by
  intro m hm e
  have hcount := h m hm e
  cases e with
  | wire w => simpa [ends, count_cons] using hcount
  | component c' =>
    simp only [ends, count_cons, count_append, count_nil] at hcount ⊢
    grind

theorem Drawn.addPort (h : Drawn s W) (hn : n ∈ s.nodes) :
    Drawn { s with ports := s.ports ++ [(c, n)] } W :=
  { h with
    component := fun p hp => by
      cases mem_append.mp hp with
      | inl hp => exact h.component p hp
      | inr hp =>
        rw [mem_singleton.mp hp]
        exact hn }

theorem Clear.addPort (h : Clear s W) : Clear { s with ports := s.ports ++ [(c, n)] } W := h

theorem Listed.addPort (h : Listed s W) : Listed { s with ports := s.ports ++ [(c, n)] } W := h

/-- **A port of a component is put in at a place that is no crossing.** -/
theorem Sound.insertPort (h : Sound s W) (hlone : Lone s W (x, y)) :
    ∃ W', Sound (s.insertPort x y c) W' := by
  unfold Sheet.insertPort Sheet.insertNode
  cases hnode : s.nodeAt x y with
  | some pn =>
    obtain ⟨hpn, -⟩ := nodeAt_eq_some hnode
    have hlist : Listed (s.append pn (.component c)) W := h.listed
    have hclear : Clear (s.append pn (.component c)) W := h.clear.relink _
    exact ⟨W, h.drawn.append.addPort hpn, h.linked.append.addPort, hlist.addPort, hclear.addPort⟩
  | none =>
    have hfree := fun m hm => nodeAt_eq_none (m := m) hnode hm
    obtain ⟨hd, hl⟩ := h.newNode hfree
    have hpn : s.fresh ∈ ((s.newNode x y).append s.fresh (.component c)).nodes :=
      (mem_nodes_newNode (x := x) (y := y)).mpr (.inr rfl)
    have hlist : Listed ((s.newNode x y).append s.fresh (.component c)) W := h.listed
    dsimp only
    cases hwire : ((s.newNode x y).append s.fresh (.component c)).wireAt x y with
    | none =>
      refine ⟨W, hd.addPort hpn, hl.addPort, hlist.addPort, fun v hv m hm hin => ?_⟩
      obtain ⟨-, hin⟩ := h.clear.inside_newNode h.drawn hv hm (place_append ▸ hin)
      exact wireAt_eq_none hd hlist hwire hv (hin.covers (h.drawn.ordered v hv))
    | some pw =>
      obtain ⟨hpw, hc⟩ := wireAt_eq_some hd hlist hwire
      have hin := h.drawn.inside_of_covers hpw hfree hc
      have hin' : (((s.newNode x y).append s.fresh (.component c)).wire pw).Inside
          (((s.newNode x y).append s.fresh (.component c)).place s.fresh) := by
        rw [place_append, place_newNode_self]
        exact hin
      have hclear := Clear.splitWire hd hpw hin' fun v hv m hm hvm =>
        have ⟨hm, hvm⟩ := h.clear.inside_newNode h.drawn hv hm (place_append ▸ hvm)
        ⟨hlone v hv pw hpw hvm hin, hm⟩
      exact ⟨_, (hd.splitWire hpw hpn hin').addPort hpn, (hl.splitWire hd hpw).addPort,
        (hlist.splitWire hd).addPort, hclear.addPort⟩

/-! ## Two wires become one -/

theorem Drawn.port_ne (hd : Drawn s W) (hw : w ∈ W) : (s.wire w).port1 ≠ (s.wire w).port2 := by
  intro heq
  have h1 := hd.place_port w hw .one
  have h2 := hd.place_port w hw .two
  simp only [Wire.port, heq] at h1 h2
  exact Segment.endpoint_ne (hd.ordered w hw) (h1.symm.trans h2)

section Join

variable {f g : ℕ}

@[simp] theorem place_join : (s.join f g n).place m = s.place m := by simp [join]

theorem wire_join_self : (s.join f g n).wire f =
    ⟨(s.wire f).stretch (s.wire g).toSegment .two, (s.wire f).port1, (s.wire g).port2⟩ :=
  wire_setWire_self

theorem wire_join_of_ne (hv : v ≠ f) : (s.join f g n).wire v = s.wire v := wire_setWire_of_ne hv

variable (hd : Drawn s W) (hf : f ∈ W) (hg : g ∈ W) (hfg : f ≠ g) (hfn : (s.wire f).port2 = n)
  (hgn : (s.wire g).port1 = n)
include hd hf hg hfg hfn hgn

theorem Linked.join (h : Linked s W loose) : Linked (s.join f g n) (W.erase g) loose := by
  have hg' := mem_erase.mpr ⟨hfg.symm, hg⟩
  have hf' := mem_erase.mpr ⟨hfg, hf⟩
  have hout : f ∉ (W.erase g).erase f := notMem_erase f _
  have htake := (h.take hf).take hg'
  rw [hfn, hgn, Finset.erase_right_comm] at htake
  rw [← insert_erase hf']
  refine Linked.put hout ?_
  rw [wire_join_self]
  have hends : Linked (s.join f g n) ((W.erase g).erase f)
      ((.wire f, (s.wire g).port2) :: (.wire f, (s.wire f).port1) :: loose) := by
    refine (Linked.append (Linked.removeRef ?_)).removeWire
    refine (htake.setWire hout).removeNode hd.nodup fun m hm e => ?_
    simp only [count_cons, beq_iff_eq, Prod.mk.injEq, hm.symm, and_false, if_false]
    omega
  refine hends.congr fun p => ?_
  simp only [count_cons]
  omega

omit hfg in
theorem Drawn.covers_join : (s.wire g).Covers ((s.wire f).endpoint .two) := by
  have hf2 := hd.place_port f hf .two
  have hg1 := hd.place_port g hg .one
  simp only [Wire.port, hfn, hgn] at hf2 hg1
  rw [← hf2, hg1]
  exact Segment.covers_endpoint (hd.ordered g hg) .one

variable (hdir : (s.wire f).isHorizontal = (s.wire g).isHorizontal)
include hdir

theorem Drawn.join (hwire : ∀ v ∈ (W.erase g).erase f, ∀ σ, (s.wire v).port σ ≠ n)
    (hcomp : ∀ p ∈ s.ports, p.2 ≠ n) : Drawn (s.join f g n) (W.erase g) := by
  have hf' := mem_erase.mpr ⟨hfg, hf⟩
  have hout : f ∉ (W.erase g).erase f := notMem_erase f _
  have hcov := hd.covers_join hf hg hfn hgn
  have hrest : Drawn (s.join f g n) ((W.erase g).erase f) :=
    ((hd.erase.erase.removeNode hwire hcomp).setWire hout).removeRef.append.removeWire
  have hmem : ∀ m ∈ s.nodes, m ≠ n → m ∈ (s.join f g n).nodes := fun m hm hne =>
    hd.nodup.mem_erase_iff.mpr ⟨hne, hm⟩
  rw [← insert_erase hf']
  refine hrest.put (hd.wire_lt f hf) ?_ ?_ ?_ ?_ <;> rw [wire_join_self]
  · exact (hd.ordered f hf).stretch (hd.ordered g hg) hdir hcov
  · rintro (_ | _)
    · exact hmem _ (hd.port_mem f hf .one) (hfn ▸ hd.port_ne hf)
    · exact hmem _ (hd.port_mem g hg .two) (hgn ▸ (hd.port_ne hg).symm)
  · rintro (_ | _)
    · exact place_join.trans (hd.place_port f hf .one)
    · exact place_join.trans (hd.place_port g hg .two)
  · intro v hv ho
    obtain ⟨hvf, hv'⟩ := mem_erase.mp hv
    obtain ⟨hvg, hv'⟩ := mem_erase.mp hv'
    rw [wire_join_of_ne hvf] at ho
    cases ho.of_stretch (hd.ordered f hf) (hd.ordered g hg) hcov (hd.ordered v hv') with
    | inl ho => exact hd.apart v hv' f hf hvf ho
    | inr ho => exact hd.apart v hv' g hg hvg ho

omit hfg hdir in
theorem Clear.join (h : Clear s W) (hn : n ∈ s.nodes) : Clear (s.join f g n) (W.erase g) := by
  intro v hv m hm hin
  obtain ⟨hmn, hm⟩ := hd.nodup.mem_erase_iff.mp hm
  obtain ⟨-, hv⟩ := mem_erase.mp hv
  rw [place_join] at hin
  by_cases hvf : v = f
  · rw [hvf, wire_join_self] at hin
    have hcov := hd.covers_join hf hg hfn hgn
    obtain hin | hin | hin := hin.of_stretch (hd.ordered f hf) (hd.ordered g hg) hcov
    · exact h f hf m hm hin
    · exact h g hg m hm hin
    · have hf2 := hd.place_port f hf .two
      simp only [Wire.port, hfn] at hf2
      exact hmn (hd.spot m hm n hn (hin.trans hf2.symm))
  · rw [wire_join_of_ne hvf] at hin
    exact h v hv m hm hin

end Join

/-- The node `n` is done with; wires that are not counted stay as they are. -/
structure Settled (s s' : Sheet) (W : Finset ℕ) (loose : List (Element × ℕ)) (n : ℕ)
    (W' : Finset ℕ) : Prop where
  drawn : Drawn s' W'
  linked : Linked s' W' loose
  clear : Clear s' W'
  subset : W' ⊆ W
  listed : ∀ w, w ∉ W → Listed s (insert w W) → Listed s' (insert w W')
  wire : ∀ v, v ∉ W → s'.wire v = s.wire v
  mem_nodes : ∀ m ∈ s.nodes, m ≠ n → m ∈ s'.nodes

theorem Settled.refl (hd : Drawn s W) (hl : Linked s W loose) (hc : Clear s W) :
    Settled s s W loose n W where
  drawn := hd
  linked := hl
  clear := hc
  subset := subset_rfl
  listed := fun _ _ h => h
  wire := fun _ _ => rfl
  mem_nodes := fun _ hm _ => hm

theorem settled_join {f g : ℕ} (hd : Drawn s W) (hl : Linked s W loose) (hc : Clear s W)
    (hn : n ∈ s.nodes) (hf : f ∈ W) (hg : g ∈ W) (hfg : f ≠ g) (hfn : (s.wire f).port2 = n)
    (hgn : (s.wire g).port1 = n) (hdir : (s.wire f).isHorizontal = (s.wire g).isHorizontal)
    (hwire : ∀ v ∈ W, v ≠ f → v ≠ g → ∀ σ, (s.wire v).port σ ≠ n)
    (hcomp : ∀ p ∈ s.ports, p.2 ≠ n) : Settled s (s.join f g n) W loose n (W.erase g) where
  drawn := hd.join hf hg hfg hfn hgn hdir (fun v hv => by
    obtain ⟨hvf, hv⟩ := mem_erase.mp hv
    obtain ⟨hvg, hv⟩ := mem_erase.mp hv
    exact hwire v hv hvf hvg) hcomp
  linked := hl.join hd hf hg hfg hfn hgn
  clear := hc.join hd hf hg hfn hgn hn
  subset := Finset.erase_subset g W
  listed := fun w hw h => by
    have hlist : Listed (s.join f g n) ((insert w W).erase g) := h.removeWire
    rwa [Finset.erase_insert_of_ne (ne_of_mem_of_not_mem hg hw).symm] at hlist
  wire := fun v hv => wire_join_of_ne (ne_of_mem_of_not_mem hf hv).symm
  mem_nodes := fun m hm hne => hd.nodup.mem_erase_iff.mpr ⟨hne, hm⟩

/-- Wires of one line that meet at a node: the one ends there, the other begins. -/
theorem Drawn.meet {f g : ℕ} {τ : Side} (hd : Drawn s W) (hf : f ∈ W) (hg : g ∈ W) (hfg : f ≠ g)
    (hdir : (s.wire f).isHorizontal = (s.wire g).isHorizontal) (hfn : (s.wire f).port σ = n)
    (hgn : (s.wire g).port τ = n) :
    (s.wire f).endpoint σ = (s.wire g).endpoint τ ∧ τ = σ.other := by
  have hend : (s.wire f).endpoint σ = (s.wire g).endpoint τ := by
    rw [← hd.place_port f hf, ← hd.place_port g hg, hfn, hgn]
  refine ⟨hend, ?_⟩
  have hover : σ ≠ τ := fun heq => hd.apart f hf g hg hfg
    (.of_endpoint (hd.ordered f hf) (hd.ordered g hg) hdir (heq ▸ hend))
  cases σ <;> cases τ <;> simp_all [Side.other]

/-- **A node with two connections is joined or left.** -/
theorem oneTwoWires_settled (hd : Drawn s W) (hl : Linked s W loose) (hc : Clear s W)
    (hn : n ∈ s.nodes) (htwo : s.count n = 2) (hloose : ∀ e, loose.count (e, n) = 0) :
    ∃ W', Settled s (s.oneTwoWires n) W loose n W' := by
  obtain ⟨a, b, hab⟩ := length_eq_two.mp htwo
  have hends : ∀ e, s.ends W e n = [a, b].count e := fun e => by
    rw [← hab, hl n hn e, hloose e, Nat.add_zero]
  unfold oneTwoWires
  rw [hab]
  simp only [head?_cons, getLast?_cons_cons, getLast?_singleton]
  cases a with
  | component c => exact ⟨W, .refl hd hl hc⟩
  | wire e1 =>
    cases b with
    | component c => exact ⟨W, .refl hd hl hc⟩
    | wire e2 =>
      obtain ⟨h1, σ, hσ⟩ := ends_pos_iff.mp (by rw [hends]; simp : 0 < s.ends W (.wire e1) n)
      obtain ⟨h2, τ, hτ⟩ := ends_pos_iff.mp (by rw [hends]; simp : 0 < s.ends W (.wire e2) n)
      have hne : e1 ≠ e2 := by
        rintro rfl
        have htwice := hends (.wire e1)
        have hport := hd.port_ne h1
        simp only [ends, h1, if_true] at htwice
        grind
      have hwire : ∀ v ∈ W, v ≠ e1 → v ≠ e2 → ∀ σ, (s.wire v).port σ ≠ n :=
        fun v hv hv1 hv2 σ hσ => (ends_pos_iff.mpr ⟨hv, σ, hσ⟩).ne' (by
          rw [hends]
          simp [hv1.symm, hv2.symm])
      have hcomp := snd_ne_of_count_eq_zero fun c => (hends (.component c)).trans (by simp)
      dsimp only
      split_ifs with hdir hswap
      · obtain ⟨hend, rfl⟩ := hd.meet h1 h2 hne hdir hσ hτ
        cases σ with
        | one =>
          exact ⟨_, settled_join hd hl hc hn h2 h1 hne.symm hτ hσ hdir.symm
            (fun v hv hv2 hv1 => hwire v hv hv1 hv2) hcomp⟩
        | two =>
          exact absurd (Prod.ext hswap.1 hswap.2)
            (Segment.endpoint_ne_of_endpoint_eq (hd.ordered e1 h1) (hd.ordered e2 h2) hend)
      · obtain ⟨hend, rfl⟩ := hd.meet h1 h2 hne hdir hσ hτ
        cases σ with
        | one => exact absurd ⟨congrArg Prod.fst hend, congrArg Prod.snd hend⟩ hswap
        | two => exact ⟨_, settled_join hd hl hc hn h1 h2 hne hσ hτ hdir hwire hcomp⟩
      · exact ⟨W, .refl hd hl hc⟩

/-! ## A wire is deleted -/

theorem release_settled (hd : Drawn s W) (hl : Linked s W ((.wire w, n) :: loose))
    (hc : Clear s W) (hn : n ∈ s.nodes) (hloose : ∀ e, loose.count (e, n) = 0) :
    ∃ W', Settled s (s.release w n) W loose n W' := by
  unfold release
  split_ifs with hone
  · obtain ⟨hwire, hcomp⟩ := ne_of_ends (hl.only hn hone).1
    exact ⟨W, {
      drawn := hd.removeNode hwire hcomp
      linked := hl.removeNode hd.nodup fun m hm e => (count_cons_of_snd_ne hm).symm
      clear := fun v hv m hm => hc v hv m (mem_of_mem_erase hm)
      subset := subset_rfl
      listed := fun _ _ h => h
      wire := fun _ _ => rfl
      mem_nodes := fun m hm hne => hd.nodup.mem_erase_iff.mpr ⟨hne, hm⟩ }⟩
  · have hd' : Drawn (s.removeRef n (.wire w)) W := hd.removeRef
    have hl' := hl.removeRef
    have hc' : Clear (s.removeRef n (.wire w)) W := hc.relink _
    dsimp only
    split_ifs with htwo
    · obtain ⟨W', hset⟩ := oneTwoWires_settled hd' hl' hc' hn htwo hloose
      exact ⟨W', { hset with }⟩
    · exact ⟨W, { Settled.refl hd' hl' hc' with }⟩

/-- **A wire is taken out.** -/
theorem Sound.deleteWire (h : Sound s W) (hw : w ∈ W) : ∃ W', Sound (s.deleteWire w) W' := by
  have hw' := notMem_erase w W
  have hp1 := h.drawn.port_mem w hw .one
  have hp2 := h.drawn.port_mem w hw .two
  have hne := h.drawn.port_ne hw
  have hlist : Listed s (insert w (W.erase w)) := by
    rw [insert_erase hw]
    exact h.listed
  obtain ⟨W₁, h₁⟩ := release_settled h.drawn.erase (h.linked.take hw)
    (fun v hv => h.clear v (Finset.mem_of_mem_erase hv)) hp1 fun e => by
      rw [count_cons_of_ne (by simp [hne.symm])]
      rfl
  have hw₁ : w ∉ W₁ := fun hmem => hw' (h₁.subset hmem)
  unfold Sheet.deleteWire
  dsimp only
  rw [h₁.wire w hw']
  obtain ⟨W₂, h₂⟩ := release_settled h₁.drawn h₁.linked h₁.clear
    (h₁.mem_nodes _ hp2 hne.symm) fun e => rfl
  have hlist₂ := (h₂.listed w hw₁ (h₁.listed w hw' hlist)).removeWire (w := w)
  rw [Finset.erase_insert fun hmem => hw₁ (h₂.subset hmem)] at hlist₂
  exact ⟨W₂, h₂.drawn.removeWire, h₂.linked.removeWire, hlist₂, h₂.clear⟩

end Qucs.Wiring
