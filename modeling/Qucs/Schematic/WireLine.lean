/-
# Following a wire line

`Schematic::selectWireLine` goes on from node to node for as long as there are two
connections, and selects the wires on its way. Of the nodes it has met it knows only
the first one. But the way can be gone backwards, so that it cannot close up before
it is back there. The selection is the wires' `isSelected`.
-/
import Qucs.Lib.Walk
import Qucs.Schematic.Wiring

namespace Qucs.Wiring

open Lib.Walk Relation List

def Wire.otherEnd (W : Wire) (pn : ℕ) : ℕ := if W.port1 = pn then W.port2 else W.port1

/-- The wire that leads on, and its other end. -/
def Sheet.follow (s : Sheet) (pe : Element) (pn : ℕ) : Option (ℕ × ℕ) :=
  match (s.node pn).connections with
  | [first, last] =>
    match if first = pe then last else first with
    | .wire w => some (w, (s.wire w).otherEnd pn)
    | .component _ => none
  | _ => none

/-- The rounds of the loop are counted, the first node is `start`. -/
def Sheet.selectFrom (s : Sheet) (ctrl : Bool) (start : ℕ) :
    ℕ → Element → ℕ → (ℕ → Bool) → Option (ℕ → Bool)
  | 0, _, _, _ => none
  | rounds + 1, pe, pn, isSelected =>
    match s.follow pe pn with
    | none => some isSelected
    | some (w, pn) =>
      let isSelected := Function.update isSelected w (if ctrl then !isSelected w else true)
      if pn = start then some isSelected
      else s.selectFrom ctrl start rounds (.wire w) pn isSelected

/-- The wires from one end of a wire on. -/
def Sheet.selectWireLine (s : Sheet) (rounds : ℕ) (pe : Element) (pn : ℕ) (ctrl : Bool)
    (isSelected : ℕ → Bool) : Option (ℕ → Bool) :=
  s.selectFrom ctrl pn rounds pe pn isSelected

/-- A wire has two ends, and is listed there and nowhere else. -/
structure EndsListed (s : Sheet) : Prop where
  ends : ∀ w ∈ s.wires, (s.wire w).port1 ∈ s.nodes ∧ (s.wire w).port2 ∈ s.nodes
  distinct : ∀ w ∈ s.wires, (s.wire w).port1 ≠ (s.wire w).port2
  mem_iff : ∀ n ∈ s.nodes, ∀ w, .wire w ∈ (s.node n).connections ↔
    w ∈ s.wires ∧ ((s.wire w).port1 = n ∨ (s.wire w).port2 = n)

variable {s : Sheet} {start : ℕ}

/-- The walk is at a node, where it came by an element. -/
def At (s : Sheet) (a : Element × ℕ) : Prop := a.2 ∈ s.nodes ∧ a.1 ∈ (s.node a.2).connections

/-- One round that is not the last. -/
def Follows (s : Sheet) (start : ℕ) (a b : Element × ℕ) : Prop :=
  At s a ∧ b.2 ≠ start ∧ ∃ w, s.follow a.1 a.2 = some (w, b.2) ∧ b.1 = .wire w

theorem follow_spec {a : Element × ℕ} {w n : ℕ} (hs : EndsListed s) (ha : At s a)
    (h : s.follow a.1 a.2 = some (w, n)) :
    At s (.wire w, n) ∧ a.2 = (s.wire w).otherEnd n ∧ ∃ first last,
      (s.node a.2).connections = [first, last] ∧
        (if first = a.1 then last else first) = .wire w := by
  rw [Sheet.follow] at h
  split at h
  case h_2 => cases h
  case h_1 first last hcons =>
    split at h
    case h_2 => cases h
    case h_1 w' hw =>
      cases h
      have hmem : .wire w ∈ (s.node a.2).connections := by grind
      obtain ⟨hwires, hend⟩ := (hs.mem_iff _ ha.1 w).mp hmem
      have hdist := hs.distinct w hwires
      have hends := hs.ends w hwires
      have hn : (s.wire w).otherEnd a.2 ∈ s.nodes := by
        unfold Wire.otherEnd
        split_ifs
        exacts [hends.2, hends.1]
      refine ⟨⟨hn, (hs.mem_iff _ hn w).mpr ⟨hwires, ?_⟩⟩, ?_, first, last, hcons, hw⟩
      · grind [Wire.otherEnd]
      · grind [Wire.otherEnd]

/-- The way back is as certain as the way on. -/
theorem follows_leftUnique (hs : EndsListed s) : Relator.LeftUnique (Follows s start) := by
  rintro ⟨e, n⟩ ⟨e', n'⟩ b ⟨ha, -, w, hw, hb⟩ ⟨ha', -, w', hw', hb'⟩
  obtain rfl : w = w' := Element.wire.inj (hb.symm.trans hb')
  obtain ⟨-, hn, first, last, hcons, hlead⟩ := follow_spec hs ha hw
  obtain ⟨-, hn', first', last', hcons', hlead'⟩ := follow_spec hs ha' hw'
  obtain rfl : n = n' := hn.trans hn'.symm
  have he := ha.2
  have he' := ha'.2
  simp only [hcons, cons.injEq, mem_cons, not_mem_nil, or_false] at hcons' he he'
  grind

theorem exists_steps_of_selectFrom {ctrl : Bool} (hs : EndsListed s) : ∀ {rounds : ℕ}
    {a : Element × ℕ} {isSelected : ℕ → Bool}, At s a →
    s.selectFrom ctrl start rounds a.1 a.2 isSelected = none →
    ∃ b, Steps (Follows s start) rounds a b
  | 0, a, _, _, _ => ⟨a, .zero a⟩
  | rounds + 1, a, isSelected, ha, h => by
    rw [Sheet.selectFrom] at h
    split at h
    case h_1 => cases h
    case h_2 w n hw =>
      dsimp only at h
      by_cases hn : n = start
      · rw [if_pos hn] at h
        cases h
      rw [if_neg hn] at h
      obtain ⟨c, hc⟩ := exists_steps_of_selectFrom hs (a := (.wire w, n)) (follow_spec hs ha hw).1 h
      exact ⟨c, .succ ⟨ha, hn, w, hw, rfl⟩ hc⟩

/-- **Following a wire line ends**, also where the wires form loops. -/
theorem selectWireLine_ends (hs : EndsListed s) {pe : Element} {pn : ℕ} (hpn : pn ∈ s.nodes)
    (hpe : pe ∈ (s.node pn).connections) (ctrl : Bool) (isSelected : ℕ → Bool) :
    ∃ rounds, (s.selectWireLine rounds pe pn ctrl isSelected).isSome := by
  let L := s.nodes.flatMap fun n => (s.node n).connections.map (·, n)
  have hL : ∀ x y, ReflTransGen (Follows s pn) (pe, pn) x → Follows s pn x y → x ∈ L :=
    fun x _ _ h => mem_flatMap.mpr ⟨x.2, h.1.1, mem_map.mpr ⟨x.1, h.1.2, rfl⟩⟩
  refine ⟨L.length + 1, ?_⟩
  by_contra hnone
  obtain ⟨b, hb⟩ := exists_steps_of_selectFrom hs (a := (pe, pn)) ⟨hpn, hpe⟩
    (Option.not_isSome_iff_eq_none.mp hnone)
  obtain ⟨x, hx, hcycle⟩ := exists_cycle_of_steps hL (Nat.lt_succ_self _) hb
  obtain ⟨y, -, hy⟩ := TransGen.tail'_iff.mp (cycle_of_leftUnique (follows_leftUnique hs) hx hcycle)
  exact hy.2.1 rfl

/-- A loop of two wires between the nodes 0 and 1. -/
def loop : Sheet where
  nodes := [0, 1]
  node := fun _ => ⟨0, 0, [.wire 0, .wire 1]⟩
  wires := [0, 1]
  wire := fun _ => ⟨⟨0, 0, 0, 0⟩, 0, 1⟩
  ports := []
  fresh := 2

theorem selectWireLine_ends_loop :
    ∃ rounds, (loop.selectWireLine rounds (.wire 0) 0 false fun _ => false).isSome :=
  selectWireLine_ends ⟨by decide, by decide, by simp [loop]⟩ (by decide) (by decide) _ _

end Qucs.Wiring
