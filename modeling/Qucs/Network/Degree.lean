/-
# Two terminals at every node

The loops of `insertConnections` one after the other, each with the invariant
it keeps:

* insertConnectors: `Collects`, the name is on the node, on those collected and on
  those still to come
* the first loop: `Settled`, names of nodes that are done are on two nodes
* the ports: `Ported`, so are all names; ports that are done share theirs with the
  transformer
* the last loop: `Grounded`, nodes that are still grounded are to come

Every net of the way is reached by insertions (`run`). What the solver then
finds is `Wired`, and no node is called "gnd" any more.
-/
import Qucs.Network.Insertions

namespace Qucs.Network

open Net List

/-! ## Splitting one name -/

/-- The names of `net'` are those of `net` on its nodes, the name `x`, or new
ones, each on two nodes; nodes of another name than `x` are where they were. -/
structure Splits (net net' : Net) (x : String) : Prop where
  run : Relation.ReflTransGen Inserts net net'
  fresh : Fresh net'
  noGround : NoGround net → NoGround net'
  le : net.insertedNodes ≤ net'.insertedNodes
  keeps : ∀ y L, y ≠ x → (∀ j, net.insertedNodes ≤ j → y ≠ inode j) →
    Carried net y L → Carried net' y L
  new : ∀ j, net.insertedNodes ≤ j → j < net'.insertedNodes → Paired net' (inode j)
  names : ∀ t ∈ net'.terminals, (t ∈ net.terminals ∧ net'.name t = net.name t) ∨
    net'.name t = x ∨ ∃ j, net.insertedNodes ≤ j ∧ net'.name t = inode j

variable {net : Net}

theorem Splits.refl (h : Fresh net) (x : String) : Splits net net x where
  run := .refl
  fresh := h
  noGround := id
  le := Nat.le_refl _
  keeps := fun _ _ _ _ hy => hy
  new := fun _ hj hj' => absurd hj' (Nat.not_lt.mpr hj)
  names := fun _ ht => .inl ⟨ht, rfl⟩

variable {x : String}

theorem Splits.trans {net net' net'' : Net} (h : Splits net net' x)
    (h' : Splits net' net'' x) (hx : ∀ j, net.insertedNodes ≤ j → x ≠ inode j) :
    Splits net net'' x where
  run := h.run.trans h'.run
  fresh := h'.fresh
  noGround := h'.noGround ∘ h.noGround
  le := h.le.trans h'.le
  keeps := fun y L hyx hy hL =>
    h'.keeps y L hyx (fun j hj => hy j (h.le.trans hj)) (h.keeps y L hyx hy hL)
  new := by
    intro j hj hj'
    rcases Nat.lt_or_ge j net'.insertedNodes with hlt | hge
    · obtain ⟨a, b, hab⟩ := h.new j hj hlt
      refine ⟨a, b, h'.keeps _ _ (hx j hj).symm ?_ hab⟩
      intro i hi heq
      exact (hlt.trans_le hi).ne (inode_injective heq)
    · exact h'.new j hge hj'
  names := by
    intro t ht
    rcases h'.names t ht with ⟨ht', hname⟩ | hname | ⟨j, hj, hname⟩
    · rw [hname]
      exact h.names t ht'
    · exact .inr (.inl hname)
    · exact .inr (.inr ⟨j, h.le.trans hj, hname⟩)

variable {net' : Net}

theorem Connects.splits {o : Circuit} {nodes : List Terminal}
    (h : Connects net net' o nodes x) (kind : Connector o nodes.length) (hf : Fresh net)
    (hmem : ∀ n ∈ nodes, n ∈ net.terminals ∧ net.name n = x)
    (hxn : ∃ n ∈ net.terminals, net.name n = x)
    (hx : ∀ j, net.insertedNodes ≤ j → x ≠ inode j) : Splits net net' x where
  run := .single (.connector kind h hmem hxn)
  fresh := (h.step hf (fun n hn => (hmem n hn).1) hxn).fresh hf
  noGround := h.adds.noGround hf kind.type_ne
  le := h.insertedNodes ▸ Nat.le_add_right _ _
  keeps := by
    intro y L hyx hy hL
    refine ⟨hL.nodup, fun t => ?_⟩
    rw [hL.mem, h.cases hf fun n hn => (hmem n hn).1]
    constructor
    · rintro ⟨ht, hname⟩
      have hn : t ∉ nodes := fun hn => hyx (hname.symm.trans (hmem t hn).2)
      have hsame := h.others t (hf.circuit_ne ht) hn
      exact ⟨.inr (.inr (.inr ⟨ht, hn, hsame⟩)), hsame.trans hname⟩
    · rintro ⟨⟨-, hj⟩ | ⟨j, -, -, hj⟩ | ⟨j, -, hj⟩ | ⟨ht, -, hsame⟩, hname⟩
      · exact absurd (hname.symm.trans hj) hyx
      · exact absurd (hname.symm.trans hj) (hy _ (Nat.le_add_right _ _))
      · exact absurd (hname.symm.trans hj) (hy _ (Nat.le_add_right _ _))
      · exact ⟨ht, hsame.symm.trans hname⟩
  new := by
    intro j hj hlt
    rw [h.insertedNodes] at hlt
    obtain ⟨i, rfl⟩ := Nat.exists_eq_add_of_le hj
    have hi : i < nodes.length := by omega
    exact ⟨_, _, h.paired hf (fun n hn => (hmem n hn).1) hx (getElem?_eq_getElem hi)⟩
  names := by
    intro t ht
    rcases (h.cases hf fun n hn => (hmem n hn).1).mp ht with ⟨-, hname⟩ | ⟨j, -, -, hname⟩ |
      ⟨j, -, hname⟩ | ⟨ht, -, hname⟩
    · exact .inr (.inl hname)
    · exact .inr (.inr ⟨_, Nat.le_add_right _ _, hname⟩)
    · exact .inr (.inr ⟨_, Nat.le_add_right _ _, hname⟩)
    · exact .inl ⟨ht, hname⟩

variable {n : Terminal}

/-- A connector at nodes of the name `x`, which is on `n`, these nodes and
others: it comes in the place of these nodes. -/
theorem Carried.insertConnector {o : Circuit} {nodes later : List Terminal}
    (hL : Carried net x (n :: nodes ++ later)) (hf : Fresh net) (kind : Connector o nodes.length) :
    Splits net (insertConnector o net nodes x) x ∧
      Carried (insertConnector o net nodes x) x (n :: ⟨.inserted net.inserted, 0⟩ :: later) ∧
      ∀ t ∈ net.terminals, t ∉ nodes → (insertConnector o net nodes x).name t = net.name t := by
  obtain ⟨hn, hxn⟩ := (hL.mem n).mp mem_cons_self
  have hnodes := fun m hm => (hL.mem m).mp (mem_append_left _ (mem_cons_of_mem _ hm))
  have hx : ∀ j, net.insertedNodes ≤ j → x ≠ inode j := hxn ▸ hf.names n hn
  obtain ⟨-, hnodup⟩ := nodup_cons.mp (List.Nodup.of_append_left hL.nodup)
  have hconnects : Connects net (Network.insertConnector o net nodes x) o nodes x :=
    insertConnector_connects kind.size hnodup fun m hm => hf.circuit_ne (hnodes m hm).1
  exact ⟨hconnects.splits kind hf hnodes ⟨n, hn, hxn⟩ hx, hconnects.replaces hf hx hL,
    fun t ht => hconnects.others t (hf.circuit_ne ht)⟩

/-! ## One node -/

/-- The loop of `insertConnectors` before the nodes `rest`: the name is on `n`,
on the nodes collected and on those still to come. -/
structure Collects (net : Net) (n : Terminal) (x : String) (s : Net × List Terminal)
    (rest : List Terminal) : Prop where
  splits : Splits net s.1 x
  carried : Carried s.1 x (n :: s.2 ++ rest.filter fun t => net.name t = x ∧ t ≠ n)
  short : s.2.length ≤ 2
  mem : ∀ t ∈ rest, t ∈ s.1.terminals ∧ s.1.name t = net.name t

section Collects

variable {net : Net} {n t : Terminal} {x : String} {s : Net × List Terminal} {rest : List Terminal}

theorem Collects.step (h : Collects net n x s (t :: rest)) (hrest : (t :: rest).Nodup)
    (hx : ∀ j, net.insertedNodes ≤ j → x ≠ inode j) :
    Collects net n x (connectorStep n x s t) rest := by
  obtain ⟨ht, hsame⟩ := h.mem t mem_cons_self
  have hmem := fun u hu => h.mem u (mem_cons_of_mem _ hu)
  rw [connectorStep, hsame]
  by_cases hfound : net.name t = x ∧ t ≠ n
  swap
  · rw [if_neg hfound]
    refine ⟨h.splits, ?_, h.short, hmem⟩
    have hc := h.carried
    rwa [filter_cons_of_neg (by simpa using hfound)] at hc
  rw [if_pos hfound]
  let later := rest.filter fun t => net.name t = x ∧ t ≠ n
  have hcarried : Carried s.1 x (n :: (s.2 ++ [t]) ++ later) := by
    have hc := h.carried
    rw [filter_cons_of_pos (by simpa using hfound)] at hc
    refine hc.congr (.of_eq ?_)
    simp only [cons_append, append_assoc, nil_append, later]
  dsimp only
  split
  case isFalse hshort =>
    refine ⟨h.splits, hcarried, ?_, hmem⟩
    have := h.short
    simp at hshort ⊢
    omega
  case isTrue hthree =>
    have hnodes := fun m hm => ((hcarried.mem m).mp (mem_append_left _ (mem_cons_of_mem _ hm))).2
    have kind : Connector (.create .cross 4 3) (s.2 ++ [t]).length := by
      rw [hthree]
      exact .cross
    obtain ⟨hsplits, hcarried', hothers⟩ := hcarried.insertConnector h.splits.fresh kind
    refine ⟨h.splits.trans hsplits hx, hcarried', Nat.le_succ 1, ?_⟩
    intro u hu
    obtain ⟨hu', hname⟩ := hmem u hu
    refine ⟨(extends_of_run hsplits.run h.splits.fresh).mem_terminals hu',
      (hothers u hu' ?_).trans hname⟩
    intro hcollected
    rcases mem_append.mp hcollected with hu2 | hut
    · have hne : u ≠ n := by
        rintro rfl
        exact (nodup_cons.mp hcarried.nodup).1 (mem_append_left _ hcollected)
      have hlater : u ∈ later := by
        have hxu := hname.symm.trans (hnodes u hcollected)
        exact mem_filter.mpr ⟨hu, by simp [hxu, hne]⟩
      exact disjoint_of_nodup_append hcarried.nodup (mem_cons_of_mem _ hcollected) hlater
    · cases mem_singleton.mp hut
      exact (nodup_cons.mp hrest).1 hu

theorem Collects.foldl (hx : ∀ j, net.insertedNodes ≤ j → x ≠ inode j) :
    ∀ (rest : List Terminal) {s : Net × List Terminal}, rest.Nodup → Collects net n x s rest →
      Collects net n x (rest.foldl (connectorStep n x) s) []
  | [], _, _, h => h
  | _ :: rest, _, hrest, h =>
    Collects.foldl hx rest (nodup_cons.mp hrest).2 (h.step hrest hx)

end Collects

/-- Where `insertConnectors` leaves the name: on the node alone, or on it and
one other node. -/
theorem insertConnectors_splits (hf : Fresh net)
    (hn : n ∈ net.terminals) (hgnd : net.name n ≠ "gnd") :
    Splits net (insertConnectors net n) (net.name n) ∧
      (Carried (insertConnectors net n) (net.name n) [n] ∨
        ∃ m, Carried (insertConnectors net n) (net.name n) [n, m]) := by
  have hx := fun j (hj : net.insertedNodes ≤ j) => hf.names n hn j hj
  have hstart : Collects net n (net.name n) (net, []) net.terminals := by
    refine ⟨.refl hf _, ?_, Nat.zero_le 2, fun t ht => ⟨ht, rfl⟩⟩
    constructor
    · refine nodup_cons.mpr ⟨by simp, (net.nodup_terminals hf.nodup).filter _⟩
    · intro t
      simp only [nil_append, mem_filter, mem_cons, cons_append, decide_eq_true_eq]
      constructor
      · rintro (rfl | ⟨ht, hname, -⟩)
        · exact ⟨hn, rfl⟩
        · exact ⟨ht, hname⟩
      · rintro ⟨ht, hname⟩
        exact (em (t = n)).imp_right fun hne => ⟨ht, hname, hne⟩
  have hend := Collects.foldl hx net.terminals (net.nodup_terminals hf.nodup) hstart
  rw [insertConnectors, if_neg hgnd]
  dsimp only
  generalize net.terminals.foldl (connectorStep n (net.name n)) (net, []) = s at hend
  split
  case isTrue htwo =>
    obtain ⟨hsplits, hcarried, -⟩ :=
      hend.carried.insertConnector hend.splits.fresh (htwo ▸ Connector.tee)
    exact ⟨hend.splits.trans hsplits hx, .inr ⟨_, hcarried⟩⟩
  case isFalse htwo =>
    refine ⟨hend.splits, ?_⟩
    have hc := hend.carried
    rw [filter_nil, append_nil] at hc
    have hshort := hend.short
    rcases hs : s.2 with _ | ⟨m, _ | ⟨_, nodes⟩⟩
    · exact .inl (hs ▸ hc)
    · exact .inr ⟨m, hs ▸ hc⟩
    · rw [hs, length_cons, length_cons] at htwo hshort
      omega

/-- **One node**: after connectors and an open its name is on two nodes, and
other names are where they were. -/
theorem connect_splits (hf : Fresh net) (hn : n ∈ net.terminals) (hgnd : net.name n ≠ "gnd") :
    Splits net (insertOpen (insertConnectors net n) n) (net.name n) ∧
      Paired (insertOpen (insertConnectors net n) n) (net.name n) := by
  obtain ⟨hsplits, halone | ⟨m, hpair⟩⟩ := insertConnectors_splits hf hn hgnd
  · have hname := ((halone.mem n).mp (mem_singleton_self n)).2
    have hopen : insertOpen (insertConnectors net n) n =
        insertConnector (.create .opened 1 0) (insertConnectors net n) [] (net.name n) := by
      rw [insertOpen, if_pos ⟨hname.symm ▸ hgnd, halone.findConnectedNode_alone⟩, hname]
      rfl
    have hL : Carried (insertConnectors net n) (net.name n) (n :: [] ++ []) := halone
    obtain ⟨hsplits', hcarried, -⟩ := hL.insertConnector hsplits.fresh Connector.opened
    rw [hopen]
    exact ⟨hsplits.trans hsplits' (hf.names n hn), n, _, hcarried⟩
  · have hopen : insertOpen (insertConnectors net n) n = insertConnectors net n := by
      rw [insertOpen, if_neg]
      rintro ⟨-, hnone⟩
      rw [hpair.findConnectedNode] at hnone
      cases hnone
    rw [hopen]
    exact ⟨hsplits, n, m, hpair⟩

/-! ## All nodes -/

/-- The first loop over the nodes, before the nodes `rest`. -/
structure Settled (start net : Net) (rest : List Terminal) : Prop where
  run : Relation.ReflTransGen Inserts start net
  fresh : Fresh net
  noGround : NoGround net
  mem : ∀ t ∈ rest, t ∈ net.terminals
  paired : ∀ t ∈ net.terminals, net.name t ≠ "gnd" → t ∉ rest → Paired net (net.name t)
  noPac : ∀ t ∈ net.terminals, net.name t ≠ "PacGround"

variable {start : Net}

theorem Settled.step {rest : List Terminal} (h : Settled start net (n :: rest)) :
    Settled start (insertOpen (insertConnectors net n) n) rest := by
  have hn := h.mem n mem_cons_self
  have hmem : ∀ t ∈ rest, t ∈ net.terminals := fun t ht => h.mem t (mem_cons_of_mem _ ht)
  by_cases hgnd : net.name n = "gnd"
  · have hsame : insertOpen (insertConnectors net n) n = net := by
      rw [insertConnectors, if_pos hgnd, insertOpen, if_neg fun hne => hne.1 hgnd]
    rw [hsame]
    refine ⟨h.run, h.fresh, h.noGround, hmem, ?_, h.noPac⟩
    intro t ht hname hrest
    refine h.paired t ht hname ?_
    rintro (_ | ⟨_, hmem⟩)
    · exact hname hgnd
    · exact hrest hmem
  obtain ⟨hsplits, hpaired⟩ := connect_splits h.fresh hn hgnd
  constructor
  case run => exact h.run.trans hsplits.run
  case fresh => exact hsplits.fresh
  case noGround => exact hsplits.noGround h.noGround
  case mem =>
    exact fun t ht => (extends_of_run hsplits.run h.fresh).mem_terminals (hmem t ht)
  case paired =>
    intro t ht hname hrest
    rcases hsplits.names t ht with ⟨ht', hsame⟩ | hx | ⟨j, hj, hnew⟩
    · rw [hsame] at hname ⊢
      by_cases hxt : net.name t = net.name n
      · rwa [hxt]
      · have htn : t ∉ n :: rest := by
          rintro (_ | ⟨_, hmem⟩)
          · exact hxt rfl
          · exact hrest hmem
        obtain ⟨a, b, hab⟩ := h.paired t ht' hname htn
        exact ⟨a, b, hsplits.keeps _ _ hxt (h.fresh.names t ht') hab⟩
    · rwa [hx]
    · rw [hnew]
      refine hsplits.new j hj (not_le.mp fun hle => ?_)
      exact hsplits.fresh.names t ht j hle hnew
  case noPac =>
    intro t ht
    rcases hsplits.names t ht with ⟨ht', hsame⟩ | hx | ⟨j, -, hnew⟩
    · rw [hsame]
      exact h.noPac t ht'
    · rw [hx]
      exact h.noPac n hn
    · rw [hnew]
      exact inode_ne (by decide)

theorem Settled.foldl : ∀ (rest : List Terminal) {net : Net}, Settled start net rest →
    Settled start (rest.foldl (fun net n => insertOpen (insertConnectors net n) n) net) []
  | [], _, h => h
  | _ :: rest, _, h => Settled.foldl rest h.step

theorem connectAll_settled (hf : Fresh net) (hg : NoGround net)
    (hpac : ∀ t ∈ net.terminals, net.name t ≠ "PacGround") : Settled net (connectAll net) [] :=
  Settled.foldl net.terminals ⟨.refl, hf, hg, fun _ => id, fun _ ht _ hnot => absurd ht hnot, hpac⟩

/-! ## Ports -/

/-- A port as the transformer leaves it: its first node shares a name with one
node of another circuit that is no port. -/
structure Signal (net : Net) (p : Id) : Prop where
  ground : net.name ⟨p, 1⟩ = "PacGround"
  paired : ∃ c k, (net.circuit c).port = 0 ∧ Carried net (inode k) [⟨c, 0⟩, ⟨p, 0⟩]

/-- The loop over the circuits for ports, before the circuits `rest`. -/
structure Ported (start net : Net) (rest : List Id) : Prop where
  run : Relation.ReflTransGen Inserts start net
  fresh : Fresh net
  noGround : NoGround net
  mem : ∀ c ∈ rest, c ∈ net.root
  size : ∀ c ∈ net.root, (net.circuit c).port ≠ 0 → (net.circuit c).size = 2
  paired : ∀ t ∈ net.terminals, net.name t ≠ "gnd" → net.name t ≠ "PacGround" →
    Paired net (net.name t)
  signal : ∀ p ∈ net.root, (net.circuit p).port ≠ 0 → p ∉ rest → Signal net p
  pac : ∀ t ∈ net.terminals, net.name t = "PacGround" →
    (net.circuit t.circuit).port ≠ 0 ∧ t.circuit ∉ rest

theorem Signal.transforms {p q : Id} (h : Signal net q) (ht : Transforms net net' p)
    (hf : Fresh net) (hp : ∀ i < 2, (⟨p, i⟩ : Terminal) ∈ net.terminals)
    (hport : (net.circuit p).port ≠ 0) (hq : q ∈ net.root) (hqp : q ≠ p) : Signal net' q := by
  obtain ⟨c, k, hc, hL⟩ := h.paired
  obtain ⟨hcmem, hname⟩ := (hL.mem ⟨c, 0⟩).mp mem_cons_self
  have hroot := (net.mem_terminals.mp hcmem).1
  have hcp : c ≠ p := by
    rintro rfl
    exact hport hc
  constructor
  case ground =>
    rw [ht.others ⟨q, 1⟩ (fun heq => hf.not_mem (heq ▸ hq)) (by simp) (by simpa using hqp)]
    exact h.ground
  case paired =>
    have hfresh : inode k ≠ inode net.insertedNodes := hname ▸ hf.names _ hcmem _ (Nat.le_refl _)
    have hkeep := ht.keeps hf hp hfresh (inode_ne (by decide)) hL
    refine ⟨c, k, (ht.adds.circuit_of_mem hf hroot).symm ▸ hc, ?_⟩
    simpa [taken, hcp, hqp] using hkeep

theorem Ported.step {p : Id} {rest : List Id} (h : Ported start net (p :: rest))
    (hrest : p ∉ rest) : Ported start (insertDifferentialPort net p) rest := by
  have hproot := h.mem p mem_cons_self
  have hmem : ∀ c ∈ rest, c ∈ net.root := fun c hc => h.mem c (mem_cons_of_mem _ hc)
  by_cases hport : (net.circuit p).port = 0
  · rw [insertDifferentialPort, if_neg (not_not.mpr hport)]
    refine ⟨h.run, h.fresh, h.noGround, hmem, h.size, h.paired, ?_, ?_⟩
    · intro q hq hqport hqrest
      refine h.signal q hq hqport ?_
      rintro (_ | ⟨_, hmem⟩)
      · exact hqport hport
      · exact hqrest hmem
    · intro t ht hname
      obtain ⟨hport, hrest⟩ := h.pac t ht hname
      exact ⟨hport, fun hmem => hrest (mem_cons_of_mem _ hmem)⟩
  have hf := h.fresh
  have hp : ∀ i < 2, ⟨p, i⟩ ∈ net.terminals := fun i hi =>
    net.mem_terminals.mpr ⟨hproot, (h.size p hproot hport).symm ▸ hi⟩
  have ht := insertDifferentialPort_transforms hport fun heq => hf.not_mem (heq ▸ hproot)
  generalize insertDifferentialPort net p = net' at ht
  have hinserts : Inserts net net' := .port ht hp
  have hext := hinserts.extends hf
  have hold : ∀ c ∈ net'.root, (net'.circuit c).port ≠ 0 → c ∈ net.root := fun c hc hcport =>
    (hext.new c hc).resolve_right fun hnew => hcport hnew.1
  constructor
  case run => exact h.run.tail hinserts
  case fresh => exact hext.fresh
  case noGround => exact ht.adds.noGround hf (by decide) h.noGround
  case mem => exact fun c hc => (hext.old c (hmem c hc)).1
  case size =>
    intro c hc hcport
    have hc' := hold c hc hcport
    rw [(hext.old c hc').2] at hcport ⊢
    exact h.size c hc' hcport
  case paired =>
    intro t htm hgnd hpac
    rcases (ht.cases hf hp).mp htm with ⟨-, hn⟩ | ⟨-, hn⟩ | ⟨-, hn⟩ | ⟨u, hu, -, hn⟩
    · exact hn ▸ ⟨_, _, ht.paired hf hp⟩
    · exact hn ▸ ⟨_, _, ht.paired hf hp⟩
    · exact absurd hn hpac
    · rw [hn] at hgnd hpac ⊢
      obtain ⟨a, b, hab⟩ := h.paired u hu hgnd hpac
      exact ⟨_, _, ht.keeps hf hp (hf.names u hu _ (Nat.le_refl _)) hpac hab⟩
  case signal =>
    intro q hq hqport hqrest
    by_cases hqp : q = p
    · subst hqp
      refine ⟨ht.ground, _, _, ?_, ht.paired hf hp⟩
      rw [ht.adds.circuit_self]
      rfl
    · have hq' := hold q hq hqport
      rw [(hext.old q hq').2] at hqport
      have hsignal := h.signal q hq' hqport fun hmem => (mem_cons.mp hmem).elim hqp hqrest
      exact hsignal.transforms ht hf hp hport hq' hqp
  case pac =>
    intro t htm hname
    rcases (ht.cases hf hp).mp htm with ⟨-, hn⟩ | ⟨-, hn⟩ | ⟨rfl, -⟩ | ⟨u, hu, rfl, hn⟩
    · exact absurd (hn.symm.trans hname) (inode_ne (by decide))
    · exact absurd (hn.symm.trans hname) (inode_ne (by decide))
    · exact ⟨(hext.old p hproot).2.symm ▸ hport, hrest⟩
    · obtain ⟨huport, hurest⟩ := h.pac u hu (hn.symm.trans hname)
      have hup : u.circuit ≠ p := fun heq => hurest (heq ▸ mem_cons_self)
      have hu0 : ∀ i, u ≠ ⟨p, i⟩ := fun i heq => hup (congrArg Terminal.circuit heq)
      have htaken : taken (.inserted net.inserted) p u = u := by
        rw [taken, if_neg (hu0 0), if_neg (hu0 1)]
      rw [htaken, (hext.old _ (net.mem_terminals.mp hu).1).2]
      exact ⟨huport, fun hmem => hurest (mem_cons_of_mem _ hmem)⟩

theorem Ported.foldl : ∀ (rest : List Id) {net : Net}, rest.Nodup →
    Ported start net rest → Ported start (rest.foldl insertDifferentialPort net) []
  | [], _, _, h => h
  | _ :: rest, _, hnodup, h =>
    Ported.foldl rest (nodup_cons.mp hnodup).2 (h.step (nodup_cons.mp hnodup).1)

/-! ## Grounds -/

/-- All nodes but those of the ground are wired in pairs. -/
structure Wired (net : Net) : Prop where
  size : ∀ c ∈ net.root, (net.circuit c).port ≠ 0 → (net.circuit c).size = 2
  paired : ∀ t ∈ net.terminals, net.name t ≠ "gnd" → net.name t ≠ "PacGround" →
    Paired net (net.name t)
  signal : ∀ p ∈ net.root, (net.circuit p).port ≠ 0 → Signal net p
  pac : ∀ t ∈ net.terminals, net.name t = "PacGround" → (net.circuit t.circuit).port ≠ 0

theorem Ported.wired (h : Ported start net []) : Wired net where
  size := h.size
  paired := h.paired
  signal := fun p hp hport => h.signal p hp hport not_mem_nil
  pac := fun t ht hname => (h.pac t ht hname).1

theorem Wired.port_of_gnd (h : Wired net) (hn : n ∈ net.terminals)
    (hgnd : net.name n = "gnd") : (net.circuit n.circuit).port = 0 := by
  by_contra hport
  obtain ⟨p, i⟩ := n
  obtain ⟨hp, hi⟩ := net.mem_terminals.mp hn
  rw [h.size p hp hport] at hi
  have hsignal := h.signal p hp hport
  match i, hi with
  | 0, _ =>
    obtain ⟨c, k, -, hL⟩ := hsignal.paired
    have hname := ((hL.mem ⟨p, 0⟩).mp (by simp)).2
    exact inode_ne (by decide) (hname.symm.trans hgnd)
  | 1, _ =>
    rw [hsignal.ground] at hgnd
    exact absurd hgnd (by decide)

theorem Wired.grounds (h : Wired net) (hg : Grounds net net' n)
    (hf : Fresh net) (hn : n ∈ net.terminals) (hgnd : net.name n = "gnd") : Wired net' := by
  have hext := (Inserts.ground hg hn hgnd).extends hf
  have hold : ∀ c ∈ net'.root, (net'.circuit c).port ≠ 0 →
      c ∈ net.root ∧ (net.circuit c).port ≠ 0 := by
    intro c hc hport
    have hc' := (hext.new c hc).resolve_right fun hnew => hport hnew.1
    exact ⟨hc', (hext.old c hc').2 ▸ hport⟩
  constructor
  case size =>
    intro c hc hport
    obtain ⟨hc', hport⟩ := hold c hc hport
    rw [(hext.old c hc').2]
    exact h.size c hc' hport
  case paired =>
    intro t ht htgnd hpac
    rcases (hg.cases hf hn).mp ht with ⟨-, hname⟩ | ⟨-, hname⟩ | ⟨ht', -, hname⟩
    · exact hname ▸ ⟨_, _, hg.paired hf hn⟩
    · exact hname ▸ ⟨_, _, hg.paired hf hn⟩
    · rw [hname] at htgnd hpac ⊢
      obtain ⟨a, b, hab⟩ := h.paired t ht' htgnd hpac
      exact ⟨a, b, hg.keeps hf hn (hf.names t ht' _ (Nat.le_refl _)) (hgnd ▸ htgnd) hab⟩
  case signal =>
    intro p hp hport
    obtain ⟨hp', hport⟩ := hold p hp hport
    have hsignal := h.signal p hp' hport
    obtain ⟨c, k, hc, hL⟩ := hsignal.paired
    obtain ⟨hcmem, hname⟩ := (hL.mem ⟨c, 0⟩).mp mem_cons_self
    have hpn : ⟨p, 1⟩ ≠ n := by
      rintro rfl
      exact absurd (hsignal.ground.symm.trans hgnd) (by decide)
    constructor
    · rw [hg.others _ (fun heq => hf.not_mem (heq ▸ hp')) hpn]
      exact hsignal.ground
    · refine ⟨c, k, ?_, hg.keeps hf hn ?_ ?_ hL⟩
      · rw [(hext.old c (net.mem_terminals.mp hcmem).1).2]
        exact hc
      · exact hname ▸ hf.names _ hcmem _ (Nat.le_refl _)
      · rw [hgnd]
        exact inode_ne (by decide)
  case pac =>
    intro t ht hname
    rcases (hg.cases hf hn).mp ht with ⟨-, hnew⟩ | ⟨-, hnew⟩ | ⟨ht', -, hsame⟩
    · exact absurd (hnew.symm.trans hname) (inode_ne (by decide))
    · exact absurd (hnew.symm.trans hname) (inode_ne (by decide))
    · rw [(hext.old _ (net.mem_terminals.mp ht').1).2]
      exact h.pac t ht' (hsame.symm.trans hname)

/-- The second loop over the nodes, before the nodes `rest`. -/
structure Grounded (start net : Net) (rest : List Terminal) : Prop where
  run : Relation.ReflTransGen Inserts start net
  fresh : Fresh net
  wired : Wired net
  mem : ∀ t ∈ rest, t ∈ net.terminals ∧ (net.circuit t.circuit).type ≠ .ground
  gnd : ∀ t ∈ net.terminals, net.name t = "gnd" → t ∈ rest

theorem Grounded.step {rest : List Terminal}
    (h : Grounded start net (n :: rest)) : Grounded start (insertGround net n) rest := by
  obtain ⟨hn, htype⟩ := h.mem n mem_cons_self
  have hmem := fun t (ht : t ∈ rest) => h.mem t (mem_cons_of_mem _ ht)
  by_cases hgnd : net.name n = "gnd"
  · have hg := insertGround_grounds hgnd (h.wired.port_of_gnd hn hgnd) htype (h.fresh.circuit_ne hn)
    have hinserts : Inserts net (insertGround net n) := .ground hg hn hgnd
    have hext := hinserts.extends h.fresh
    refine ⟨h.run.tail hinserts, hext.fresh, h.wired.grounds hg h.fresh hn hgnd, ?_, ?_⟩
    · intro t ht
      obtain ⟨htm, httype⟩ := hmem t ht
      rw [(hext.old _ (net.mem_terminals.mp htm).1).2]
      exact ⟨hext.mem_terminals htm, httype⟩
    · intro t ht hname
      rcases (hg.cases h.fresh hn).mp ht with ⟨-, hnew⟩ | ⟨-, hnew⟩ | ⟨ht', htn, hsame⟩
      · exact absurd (hnew.symm.trans hname) (inode_ne (by decide))
      · exact absurd (hnew.symm.trans hname) (inode_ne (by decide))
      · exact (mem_cons.mp (h.gnd t ht' (hsame.symm.trans hname))).resolve_left htn
  · rw [insertGround, if_neg fun hyes => hgnd hyes.1]
    refine ⟨h.run, h.fresh, h.wired, hmem, ?_⟩
    intro t ht hname
    refine (mem_cons.mp (h.gnd t ht hname)).resolve_left ?_
    rintro rfl
    exact hgnd hname

theorem Grounded.foldl : ∀ (rest : List Terminal) {net : Net},
    Grounded start net rest → Grounded start (rest.foldl insertGround net) []
  | [], _, h => h
  | _ :: rest, _, h => Grounded.foldl rest h.step

/-! ## The whole preparation -/

/-! The ground `g` of a netlist is removed first. -/

section Netlist

variable (net : Netlist) {g : Id}

theorem Netlist.removeGround_eq (hg : g ∈ net.root) (htype : (net.circuit g).type = .ground)
    (gnd : Option Id) : removeGround ⟨net.toNet, gnd⟩ = ⟨net.removeCircuit g false, some g⟩ := by
  obtain ⟨g', -, hground⟩ := net.ground
  obtain rfl := (hground g hg).mp htype
  have hfind : net.root.find? (fun c => (net.circuit c).type = .ground) = some g := by
    cases hfound : net.root.find? fun c => (net.circuit c).type = .ground with
    | none =>
      have := find?_eq_none.mp hfound g hg
      simp [htype] at this
    | some c =>
      have hc : (net.circuit c).type = .ground := by simpa using find?_some hfound
      rw [(hground c (mem_of_find?_eq_some hfound)).mp hc]
  rw [removeGround]
  simp only [hfind]

theorem Netlist.mem_of_removeGround {t : Terminal}
    (ht : t ∈ (net.removeCircuit g false).terminals) : t ∈ net.terminals := by
  obtain ⟨hc, hi⟩ := (Net.mem_terminals _).mp ht
  exact (Net.mem_terminals _).mpr ⟨mem_of_mem_erase hc, hi⟩

theorem Netlist.removeGround_fresh (hnames : net.UserNames) (g : Id) :
    Fresh (net.removeCircuit g false) where
  nodup := net.nodup.erase g
  inserted := by
    intro i hi
    obtain ⟨⟨j, hj⟩, -⟩ := net.original _ (mem_of_mem_erase hi)
    cases hj
  names := fun t ht j _ => (hnames t (net.mem_of_removeGround ht)).2 j

theorem Netlist.removeGround_noGround (hg : g ∈ net.root)
    (htype : (net.circuit g).type = .ground) : NoGround (net.removeCircuit g false) := by
  obtain ⟨g', -, hground⟩ := net.ground
  obtain rfl := (hground g hg).mp htype
  intro c hc hctype
  have hcg := (hground c (mem_of_mem_erase hc)).mp hctype
  exact net.nodup.not_mem_erase (hcg ▸ hc)

/-- The net the solver works on; `gnd` is what an earlier analysis has left. -/
def Netlist.prepared (gnd : Option Id) : Net := (insertConnections ⟨net.toNet, gnd⟩).net

theorem Netlist.prepared_grounded (hnames : net.UserNames) (hg : g ∈ net.root)
    (htype : (net.circuit g).type = .ground) (gnd : Option Id) :
    Grounded (net.removeCircuit g false) (net.prepared gnd) [] := by
  have hf := net.removeGround_fresh hnames g
  rw [Netlist.prepared, insertConnections, net.removeGround_eq hg htype]
  have hsettled := connectAll_settled hf (net.removeGround_noGround hg htype)
    fun t ht => (hnames t (net.mem_of_removeGround ht)).1
  generalize connectAll (net.removeCircuit g false) = net₁ at hsettled
  have hext := extends_of_run hsettled.run hf
  have hported : Ported (net.removeCircuit g false) net₁ net₁.root := by
    refine ⟨hsettled.run, hsettled.fresh, hsettled.noGround, fun _ => id, ?_, ?_, ?_, ?_⟩
    · intro c hc hport
      have hc' := (hext.new c hc).resolve_right fun hnew => hport hnew.1
      rw [(hext.old c hc').2] at hport ⊢
      exact net.port_size c (mem_of_mem_erase hc') hport
    · exact fun t ht hname _ => hsettled.paired t ht hname not_mem_nil
    · exact fun p hp _ hnot => absurd hp hnot
    · exact fun t ht hname => absurd hname (hsettled.noPac t ht)
  have hdone := Ported.foldl net₁.root hsettled.fresh.nodup hported
  rw [← insertDifferentialPorts] at hdone
  generalize insertDifferentialPorts net₁ = net₂ at hdone
  refine Grounded.foldl net₂.terminals ⟨hdone.run, hdone.fresh, hdone.wired, ?_, fun _ ht _ => ht⟩
  exact fun t ht => ⟨ht, hdone.noGround _ (net₂.mem_terminals.mp ht).1⟩

end Netlist

/-- **Two terminals at every node**: after `insertConnections` every name but
that of the ports' ground is on exactly two nodes. -/
theorem insertConnections_degree (net : Netlist) (hnames : net.UserNames) (gnd : Option Id) :
    ∀ t ∈ (net.prepared gnd).terminals, (net.prepared gnd).name t ≠ "PacGround" →
      ((net.prepared gnd).carriers ((net.prepared gnd).name t)).length = 2 := by
  intro t ht hpac
  obtain ⟨g, hg, hground⟩ := net.ground
  have hgrounded := net.prepared_grounded hnames hg ((hground g hg).mpr rfl) gnd
  have hgnd := fun hname => not_mem_nil (hgrounded.gnd t ht hname)
  obtain ⟨a, b, hab⟩ := hgrounded.wired.paired t ht hgnd hpac
  exact (hab.perm hgrounded.fresh.nodup).length_eq

/-- A port and four more circuits at one node, of which one has an open end. -/
def fanOut : Netlist where
  circuit
    | .original 0 => .create .ground 1 0
    | .original 1 => { Circuit.create .pac 2 0 with port := 1, num := 1 }
    | _ => .create .other 2 0
  name
    | ⟨.original 0, _⟩ => "gnd"
    | ⟨.original 3, 1⟩ => "_net1"
    | ⟨_, 0⟩ => "_net0"
    | _ => "gnd"
  root := [5, 4, 3, 2, 1, 0].map .original
  drop := []
  nCircuits := 6
  nPorts := 1
  nSources := 0
  inserted := 0
  insertedNodes := 0
  reduced := 0
  nodup := by decide
  original := by simp [Circuit.create]
  ground := ⟨.original 0, by decide, by decide⟩
  port_size := by decide
  drop_nil := rfl
  counts := ⟨by decide, by decide, by decide, by decide, by decide⟩

theorem fanOut_userNames : fanOut.UserNames := by
  have h : ∀ t ∈ fanOut.terminals, fanOut.name t ≠ "PacGround" ∧
      (fanOut.name t).toList.head? ≠ some 'i' := by decide
  exact fun t ht => ⟨(h t ht).1, fun _ => (inode_ne (h t ht).2).symm⟩

theorem insertConnections_degree_fanOut :
    fanOut.UserNames ∧
      ∀ t ∈ (fanOut.prepared none).terminals, (fanOut.prepared none).name t ≠ "PacGround" →
        ((fanOut.prepared none).carriers ((fanOut.prepared none).name t)).length = 2 :=
  ⟨fanOut_userNames, insertConnections_degree fanOut fanOut_userNames none⟩

end Qucs.Network
