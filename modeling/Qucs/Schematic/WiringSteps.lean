/-
# Cutting, lengthening and swallowing wires

Two ways to cut a wire at a node inside it are in the source: `splitWire` makes the
second piece new, the loop over the covered nodes the first one. Both replace the wire
by the two parts (`Drawn.divide`).

A wire that is lengthened or swallowed takes a node with it. The source decides by the
number of connections whether the node is needed by something else; that this is
right is `Linked.onlyAt_of_count_one` and `Linked.onlyAt_of_count_two`.
-/
import Qucs.Schematic.WiringRules

namespace Qucs.Wiring

open Lib.Segments List Finset Linked Sheet

variable {s : Sheet} {W : Finset ℕ} {loose : List (Element × ℕ)} {w pw pn n m v : ℕ}
  {e : Element} {σ : Side} {a : Axis}

@[simp] theorem place_append : (s.append n e).place m = s.place m := place_relink _
@[simp] theorem place_prepend : (s.prepend n e).place m = s.place m := place_relink _
@[simp] theorem place_removeRef : (s.removeRef n e).place m = s.place m := place_relink _
@[simp] theorem place_setWire {V : Wire} : (s.setWire w V).place m = s.place m := rfl
@[simp] theorem place_newWire {V : Wire} : (s.newWire V).place m = s.place m := rfl
@[simp] theorem place_appendWire : (s.appendWire w).place m = s.place m := rfl
@[simp] theorem place_removeWire : (s.removeWire w).place m = s.place m := rfl
@[simp] theorem place_removeNode : (s.removeNode n).place m = s.place m := rfl

theorem Drawn.mem_ne_fresh (hd : Drawn s W) (hw : w ∈ W) : w ≠ s.fresh :=
  ne_of_mem_of_not_mem hw hd.fresh_notMem

/-! ## Cutting -/

/-- The wire `pw` of `W` is replaced by two, `f` up to the node `pn` inside it and `g`
from there on. -/
theorem Drawn.divide {s' : Sheet} {f g : ℕ} (hd : Drawn s W) (hpw : pw ∈ W) (hpn : pn ∈ s.nodes)
    (hin : (s.wire pw).Inside (s.place pn)) (hrest : Drawn s' (W.erase pw))
    (hnodes : s'.nodes = s.nodes) (hplace : ∀ m, s'.place m = s.place m)
    (hwire : ∀ v ∈ W.erase pw, s'.wire v = s.wire v)
    (hf : s'.wire f = ⟨(s.wire pw).upTo (s.place pn), (s.wire pw).port1, pn⟩)
    (hg : s'.wire g = ⟨(s.wire pw).onFrom (s.place pn), pn, (s.wire pw).port2⟩)
    (hflt : f < s'.fresh) (hglt : g < s'.fresh) : Drawn s' (insert g (insert f (W.erase pw))) := by
  have hfirst : Drawn s' (insert f (W.erase pw)) := by
    refine hrest.put hflt ?_ ?_ ?_ ?_ <;> rw [hf]
    · exact hin.ordered_upTo
    · rw [hnodes]
      rintro (_ | _)
      · exact hd.port_mem pw hpw .one
      · exact hpn
    · rintro (_ | _)
      · exact (hplace _).trans (hd.place_port pw hpw .one)
      · exact hplace pn
    · intro v hv
      obtain ⟨hne, hv'⟩ := mem_erase.mp hv
      rw [hwire v hv]
      exact fun ho => hd.apart v hv' pw hpw hne (ho.of_upTo hin (hd.ordered v hv'))
  refine hfirst.put hglt ?_ ?_ ?_ ?_ <;> rw [hg]
  · exact hin.ordered_onFrom
  · rw [hnodes]
    rintro (_ | _)
    · exact hpn
    · exact hd.port_mem pw hpw .two
  · rintro (_ | _)
    · exact hplace pn
    · exact (hplace _).trans (hd.place_port pw hpw .two)
  · intro v hv
    cases mem_insert.mp hv with
    | inl hv =>
      rw [hv, hf]
      exact Segment.not_overlap_upTo_onFrom
    | inr hv =>
      obtain ⟨hne, hv'⟩ := mem_erase.mp hv
      rw [hwire v hv]
      exact fun ho => hd.apart v hv' pw hpw hne (ho.of_onFrom hin (hd.ordered v hv'))

theorem Linked.divide {s' : Sheet} {V V' : Wire} (hd : Drawn s W) (hpw : pw ∈ W)
    (hold : s'.wire pw = V) (hnew : s'.wire s.fresh = V')
    (h : Linked s' (W.erase pw) ((.wire pw, V.port1) :: (.wire pw, V.port2) ::
      (.wire s.fresh, V'.port1) :: (.wire s.fresh, V'.port2) :: loose)) :
    Linked s' (insert s.fresh W) loose := by
  subst hold hnew
  have hput := put (notMem_erase pw W) h
  rw [insert_erase hpw] at hput
  exact put hd.fresh_notMem hput

section Split

theorem wire_splitWire_self :
    (s.splitWire pw pn).wire pw = ⟨(s.wire pw).upTo (s.place pn), (s.wire pw).port1, pn⟩ :=
  wire_setWire_self

theorem wire_splitWire_fresh (hpw : pw ≠ s.fresh) : (s.splitWire pw pn).wire s.fresh =
    ⟨(s.wire pw).onFrom (s.place pn), pn, (s.wire pw).port2⟩ :=
  (wire_setWire_of_ne hpw.symm).trans wire_setWire_self

theorem wire_splitWire_of_ne (hv : v ≠ pw) (hfresh : v ≠ s.fresh) :
    (s.splitWire pw pn).wire v = s.wire v :=
  (wire_setWire_of_ne hv).trans (wire_setWire_of_ne hfresh)

@[simp] theorem place_splitWire : (s.splitWire pw pn).place m = s.place m := by simp [splitWire]

theorem Linked.splitWire (h : Linked s W loose) (hd : Drawn s W) (hpw : pw ∈ W) :
    Linked (s.splitWire pw pn) (insert s.fresh W) loose := by
  refine .divide hd hpw wire_splitWire_self (wire_splitWire_fresh (hd.mem_ne_fresh hpw))
    (appendWire (removeRef ?_))
  refine (((((h.take hpw).newWire hd.erase).setWire
    (notMem_erase pw W)).prepend).prepend).prepend.congr fun p => ?_
  simp only [count_cons]
  omega

theorem Drawn.splitWire (hd : Drawn s W) (hpw : pw ∈ W) (hpn : pn ∈ s.nodes)
    (hin : (s.wire pw).Inside (s.place pn)) : Drawn (s.splitWire pw pn) (insert s.fresh W) := by
  have hrest : Drawn (s.splitWire pw pn) (W.erase pw) :=
    (((((hd.erase.newWire).setWire
      (notMem_erase pw W)).prepend).prepend).prepend).removeRef.appendWire
  rw [← insert_erase hpw]
  refine hd.divide hpw hpn hin hrest rfl (fun _ => place_splitWire) (fun v hv => ?_)
    wire_splitWire_self (wire_splitWire_fresh (hd.mem_ne_fresh hpw))
    ((hd.wire_lt pw hpw).trans (Nat.lt_succ_self _)) (Nat.lt_succ_self _)
  exact wire_splitWire_of_ne (ne_of_mem_erase hv) (hd.mem_ne_fresh (mem_of_mem_erase hv))

theorem inside_splitWire {p : ℤ × ℤ} (hd : Drawn s W) (hpw : pw ∈ W)
    (hin : (s.wire pw).Inside (s.place pn)) (hv : v ∈ insert s.fresh W)
    (hvp : ((s.splitWire pw pn).wire v).Inside p) :
    ∃ u ∈ W, (s.wire u).Inside p ∧ (u = pw → p ≠ s.place pn) ∧ (v = u ∨ v = s.fresh ∧ u = pw) := by
  cases mem_insert.mp hv with
  | inl hv =>
    rw [hv, wire_splitWire_fresh (hd.mem_ne_fresh hpw)] at hvp
    obtain ⟨hvp, hne⟩ := hin.of_onFrom hvp
    exact ⟨pw, hpw, hvp, fun _ => hne, .inr ⟨hv, rfl⟩⟩
  | inr hv =>
    by_cases hvpw : v = pw
    · rw [hvpw, wire_splitWire_self] at hvp
      obtain ⟨hvp, hne⟩ := hin.of_upTo hvp
      exact ⟨pw, hpw, hvp, fun _ => hne, .inl hvpw⟩
    · rw [wire_splitWire_of_ne hvpw (hd.mem_ne_fresh hv)] at hvp
      exact ⟨v, hv, hvp, fun h => absurd h hvpw, .inl rfl⟩

/-- If `pn` was the only node inside a wire, the pieces have none inside. -/
theorem Clear.splitWire (hd : Drawn s W) (hpw : pw ∈ W) (hin : (s.wire pw).Inside (s.place pn))
    (h : ∀ v ∈ W, ∀ m ∈ s.nodes, (s.wire v).Inside (s.place m) → v = pw ∧ m = pn) :
    Clear (s.splitWire pw pn) (insert s.fresh W) := by
  intro v hv m hm hvm
  rw [place_splitWire] at hvm
  obtain ⟨u, hu, hum, hne, -⟩ := inside_splitWire hd hpw hin hv hvm
  obtain ⟨hupw, rfl⟩ := h u hu m hm hum
  exact hne hupw rfl

end Split

section CutUnder

theorem cut_eq (hin : (s.wire pw).Inside (s.place pn)) : s.cut pw pn pn =
    (((((((s.newWire ⟨(s.wire pw).upTo (s.place pn), (s.wire pw).port1, pn⟩).append pn
      (.wire s.fresh)).appendWire s.fresh).append (s.wire pw).port1 (.wire s.fresh)).removeRef
      (s.wire pw).port1 (.wire pw)).setWire pw
      ⟨(s.wire pw).onFrom (s.place pn), pn, (s.wire pw).port2⟩).append pn (.wire pw)) := by
  have hne : (s.wire pw).x1 ≠ (s.node pn).cx ∨ (s.wire pw).y1 ≠ (s.node pn).cy := by
    have hne := hin.ne_endpoint .one
    by_contra hcon
    push Not at hcon
    exact hne (Prod.ext hcon.1.symm hcon.2.symm)
  unfold cut
  simp only [if_pos hne]
  set s₁ := ((((s.newWire _).append pn (.wire s.fresh)).appendWire s.fresh).append
    (s.wire pw).port1 (.wire s.fresh)).removeRef (s.wire pw).port1 (.wire pw) with hs₁
  have hplace : s₁.place pn = s.place pn := by simp [hs₁]
  have hx : (s₁.node pn).cx = (s.node pn).cx := congrArg Prod.fst hplace
  have hy : (s₁.node pn).cy = (s.node pn).cy := congrArg Prod.snd hplace
  rw [hx, hy]
  rfl

variable (hin : (s.wire pw).Inside (s.place pn))
include hin

@[simp] theorem place_cut : (s.cut pw pn pn).place m = s.place m := by
  rw [cut_eq hin]
  simp

theorem nodes_cut : (s.cut pw pn pn).nodes = s.nodes := by
  rw [cut_eq hin]
  rfl

theorem wires_cut : (s.cut pw pn pn).wires = s.wires ++ [s.fresh] := by
  rw [cut_eq hin]
  rfl

theorem fresh_cut : (s.cut pw pn pn).fresh = s.fresh + 1 := by
  rw [cut_eq hin]
  rfl

theorem wire_cut_self :
    (s.cut pw pn pn).wire pw = ⟨(s.wire pw).onFrom (s.place pn), pn, (s.wire pw).port2⟩ := by
  rw [cut_eq hin]
  exact wire_setWire_self

theorem wire_cut_fresh (hpw : pw ≠ s.fresh) : (s.cut pw pn pn).wire s.fresh =
    ⟨(s.wire pw).upTo (s.place pn), (s.wire pw).port1, pn⟩ := by
  rw [cut_eq hin]
  exact (wire_setWire_of_ne hpw.symm).trans wire_setWire_self

theorem wire_cut_of_ne (hv : v ≠ pw) (hfresh : v ≠ s.fresh) :
    (s.cut pw pn pn).wire v = s.wire v := by
  rw [cut_eq hin]
  exact (wire_setWire_of_ne hv).trans (wire_setWire_of_ne hfresh)

theorem Linked.cut (h : Linked s W loose) (hd : Drawn s W) (hpw : pw ∈ W) :
    Linked (s.cut pw pn pn) (insert s.fresh W) loose := by
  refine .divide hd hpw (wire_cut_self hin) (wire_cut_fresh hin (hd.mem_ne_fresh hpw)) ?_
  rw [cut_eq hin]
  refine (setWire (removeRef ?_) (notMem_erase pw W)).append
  refine (((h.take hpw).newWire hd.erase).append.appendWire).append.congr fun p => ?_
  simp only [count_cons]
  omega

theorem Drawn.cut (hd : Drawn s W) (hpw : pw ∈ W) (hpn : pn ∈ s.nodes) :
    Drawn (s.cut pw pn pn) (insert s.fresh W) := by
  have hrest : Drawn (s.cut pw pn pn) (W.erase pw) := by
    rw [cut_eq hin]
    exact ((((hd.erase.newWire).append.appendWire).append).removeRef.setWire
      (notMem_erase pw W)).append
  have hfresh : s.fresh < (s.cut pw pn pn).fresh := (fresh_cut hin).symm ▸ Nat.lt_succ_self _
  rw [← insert_erase hpw, insert_comm]
  refine hd.divide hpw hpn hin hrest (nodes_cut hin) (fun _ => place_cut hin) (fun v hv => ?_)
    (wire_cut_fresh hin (hd.mem_ne_fresh hpw)) (wire_cut_self hin) hfresh
    ((hd.wire_lt pw hpw).trans hfresh)
  exact wire_cut_of_ne hin (ne_of_mem_erase hv) (hd.mem_ne_fresh (mem_of_mem_erase hv))

end CutUnder

/-! ## Nodes with few connections -/

theorem ends_pos_iff : 0 < s.ends W (.wire w) n ↔ w ∈ W ∧ ∃ σ, (s.wire w).port σ = n := by
  constructor
  · intro h
    have hw : w ∈ W := by
      by_contra hw
      simp [ends, hw] at h
    refine ⟨hw, ?_⟩
    by_cases h1 : (s.wire w).port1 = n
    · exact ⟨.one, h1⟩
    · by_cases h2 : (s.wire w).port2 = n
      · exact ⟨.two, h2⟩
      · simp [ends, h1, h2] at h
  · rintro ⟨hw, σ, h⟩
    cases σ <;> simp only [Wire.port] at h <;> simp only [ends, hw, h, if_true] <;> omega

theorem snd_ne_of_count_eq_zero {α : Type} [DecidableEq α] {l : List (α × ℕ)}
    (h : ∀ e, l.count (e, n) = 0) : ∀ p ∈ l, p.2 ≠ n := by
  rintro ⟨e, m⟩ hp rfl
  exact count_eq_zero.mp (h e) hp

/-- Nothing but `pw` ends at the node. -/
structure OnlyAt (s : Sheet) (W : Finset ℕ) (pw n : ℕ) : Prop where
  wire : ∀ v ∈ W.erase pw, ∀ σ, (s.wire v).port σ ≠ n
  component : ∀ p ∈ s.ports, p.2 ≠ n

theorem ne_of_ends (h : ∀ e, s.ends W e n = 0) :
    (∀ v ∈ W, ∀ σ, (s.wire v).port σ ≠ n) ∧ ∀ p ∈ s.ports, p.2 ≠ n :=
  ⟨fun _ hv σ hσ => (ends_pos_iff.mpr ⟨hv, σ, hσ⟩).ne' (h _),
    snd_ne_of_count_eq_zero fun c => h (.component c)⟩

theorem count_cons_of_snd_ne {e' : Element} (hm : m ≠ n) :
    ((e', n) :: loose).count (e, m) = loose.count (e, m) :=
  count_cons_of_ne fun heq => hm (congrArg Prod.snd heq).symm

/-- The one connection of the node is a loose end. -/
theorem Linked.only (h : Linked s W ((e, n) :: loose)) (hn : n ∈ s.nodes) (hone : s.count n = 1) :
    (∀ e', s.ends W e' n = 0) ∧ ∀ e', loose.count (e', n) = 0 := by
  obtain ⟨y, hy⟩ := length_eq_one_iff.mp hone
  have hcount := h n hn
  have hye := hcount e
  refine forall_and.mp fun e' => ?_
  have := hcount e'
  grind

theorem Linked.take_side (h : Linked s W loose) (hpw : pw ∈ W) (σ : Side) : Linked s (W.erase pw)
    ((.wire pw, (s.wire pw).port σ) :: (.wire pw, (s.wire pw).port σ.other) :: loose) := by
  refine (h.take hpw).congr fun p => ?_
  cases σ <;> simp only [count_cons, Wire.port, Side.other]
  omega

theorem Linked.onlyAt_of_count_one (h : Linked s W loose) (hn : n ∈ s.nodes) (hpw : pw ∈ W)
    (hσ : (s.wire pw).port σ = n) (hone : s.count n = 1) :
    OnlyAt s W pw n ∧ ∀ e, loose.count (e, n) = 0 := by
  subst hσ
  obtain ⟨hends, hloose⟩ := (h.take_side hpw σ).only hn hone
  obtain ⟨hwire, hcomp⟩ := ne_of_ends hends
  exact ⟨⟨hwire, hcomp⟩, fun e => Nat.le_zero.mp (count_le_count_cons.trans_eq (hloose e))⟩

/-- The node has two connections, the one a wire on its way in. -/
theorem Linked.onlyAt_of_count_two (h : Linked s W ((.wire w, n) :: loose)) (hn : n ∈ s.nodes)
    (hpw : pw ∈ W) (hσ : (s.wire pw).port σ = n) (htwo : s.count n = 2) :
    OnlyAt s W pw n ∧ ∀ e, loose.count (e, n) = 0 := by
  have hmem : Element.wire w ∈ (s.node n).connections := by
    rw [← count_pos_iff, h n hn, count_cons_self]
    omega
  have hone : (s.removeRef n (.wire w)).count n = 1 := by
    rw [Sheet.count, Sheet.removeRef, connections_relink, if_pos rfl, length_erase_of_mem hmem]
    exact congrArg (· - 1) htwo
  obtain ⟨honly, hzero⟩ := h.removeRef.onlyAt_of_count_one hn hpw hσ hone
  exact ⟨⟨honly.wire, honly.component⟩, hzero⟩

/-! ## Lengthening, swallowing, shortening -/

section Lengthen

variable {loose' : List (Element × ℕ)}

/-- The wire `pw` is gone and `w` has its end `σ`. -/
theorem Linked.lengthen (h : Linked s W loose) (hd : Drawn s W) (hw : w ∉ W) (hpw : pw ∈ W)
    (hn : (s.wire pw).port σ.other = n)
    (hloose : ∀ m, m ≠ n → ∀ e, loose'.count (e, m) = loose.count (e, m)) :
    Linked (s.lengthen σ a w pw n) (W.erase pw) ((.wire w, (s.wire pw).port σ) :: loose') := by
  have hw' : w ∉ W.erase pw := fun hmem => hw (mem_of_mem_erase hmem)
  subst hn
  refine (append (removeRef ?_)).removeWire
  refine removeNode ((h.take_side hpw σ).setWire hw') hd.nodup fun m hm e => ?_
  rw [count_cons, count_cons, count_cons_of_snd_ne hm, hloose m hm e]

theorem Drawn.lengthen (hd : Drawn s W) (hw : w ∉ W) (honly : OnlyAt s W pw n) :
    Drawn (s.lengthen σ a w pw n) (W.erase pw) :=
  ((hd.erase.removeNode honly.wire honly.component).setWire fun hmem =>
    hw (mem_of_mem_erase hmem)).removeRef.append.removeWire

theorem wire_lengthen_self : (s.lengthen σ a w pw n).wire w =
    (s.wire w).moveEnd σ a ((s.wire pw).coord σ a) ((s.wire pw).port σ) := wire_setWire_self

theorem wire_lengthen_of_ne (hv : v ≠ w) : (s.lengthen σ a w pw n).wire v = s.wire v :=
  wire_setWire_of_ne hv

@[simp] theorem place_lengthen : (s.lengthen σ a w pw n).place m = s.place m := by
  simp [Sheet.lengthen]

theorem Linked.swallow (h : Linked s W loose) (hd : Drawn s W) (hpw : pw ∈ W) :
    Linked (s.swallow σ pw) (W.erase pw) loose :=
  removeWire ((h.take_side hpw σ).removeRef.removeNode hd.nodup fun _ hm _ =>
    (count_cons_of_snd_ne hm).symm)

theorem Drawn.swallow (hd : Drawn s W) (honly : OnlyAt s W pw ((s.wire pw).port σ.other)) :
    Drawn (s.swallow σ pw) (W.erase pw) :=
  (hd.erase.removeRef.removeNode honly.wire honly.component).removeWire

@[simp] theorem place_swallow : (s.swallow σ pw).place m = s.place m := by simp [Sheet.swallow]

theorem Linked.shorten (h : Linked s W loose) (hw : w ∉ W) :
    Linked (s.shorten σ a w pw) W ((.wire w, (s.wire pw).port σ.other) :: loose) :=
  (h.setWire hw).append

theorem Drawn.shorten (hd : Drawn s W) (hw : w ∉ W) : Drawn (s.shorten σ a w pw) W :=
  (hd.setWire hw).append

@[simp] theorem place_shorten : (s.shorten σ a w pw).place m = s.place m := by simp [Sheet.shorten]

end Lengthen

end Qucs.Wiring
