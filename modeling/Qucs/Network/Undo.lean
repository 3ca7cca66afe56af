/-
# Dropping takes back what inserting did

`dropConnections` looks for the circuit inserted last, drops it and starts
again. That is the reverse order of the insertions, so each drop meets the net
as the insertion left it: the new names are still on two nodes, and the node
connected to the dropped circuit is the one that was renamed. Between the two
nets the objects of dropped circuits and their names differ, nothing that is
reachable; `Same` compares what existed before.

Missing is only the case of no ground at all, where the source would attach a
null pointer: a `Netlist` has one.
-/
import Qucs.Network.Degree

namespace Qucs.Network

open Net List Function Option

/-! ## Nets that agree -/

/-- A circuit that was there before the next insertion. -/
def Existing (net : Net) (c : Id) : Prop := ∀ i, c = .inserted i → i < net.inserted

/-- The net `net'` is `net`, as far as its lists and objects go. -/
structure Same (net net' : Net) : Prop where
  root : net'.root = net.root
  circuit : ∀ c, Existing net c → net'.circuit c = net.circuit c
  name : ∀ t, Existing net t.circuit → net'.name t = net.name t

variable {net : Net} {c : Id}

theorem Fresh.existing (hf : Fresh net) (hc : c ∈ net.root) : Existing net c := by
  rintro i rfl
  exact hf.inserted i hc

theorem Existing.ne (h : Existing net c) : c ≠ .inserted net.inserted := fun heq => (h _ heq).false

section Same

variable {net net' : Net}

theorem Same.mem_terminals (h : Same net net') (hf : Fresh net) {t : Terminal} :
    t ∈ net'.terminals ↔ t ∈ net.terminals := by
  rw [Net.mem_terminals, Net.mem_terminals, h.root]
  refine and_congr_right fun hc => ?_
  rw [h.circuit _ (hf.existing hc)]

theorem Same.carried (h : Same net net') (hf : Fresh net) {x : String} {L : List Terminal}
    (hL : Carried net x L) : Carried net' x L := by
  refine ⟨hL.nodup, fun t => ?_⟩
  rw [hL.mem, h.mem_terminals hf]
  refine and_congr_right fun ht => ?_
  rw [h.name t (hf.existing (net.mem_terminals.mp ht).1)]

/-- Renaming a node that does not carry a name leaves the carriers alone. -/
theorem Carried.setName {x y : String} {L : List Terminal} {n : Terminal} (hL : Carried net y L)
    (hn : n ∉ L) (hxy : x ≠ y) : Carried (net.setName n x) y L := by
  refine ⟨hL.nodup, fun t => ?_⟩
  rw [hL.mem, setName_name]
  by_cases htn : t = n
  · subst htn
    rw [update_self]
    exact iff_of_false (fun h => hn ((hL.mem t).mpr h)) fun h => hxy h.2
  · rw [update_of_ne htn]
    rfl

end Same

/-! ## One drop -/

/-- The nodes at a connector take its name, one after the other. -/
theorem rename_nodes {x : String} : ∀ (nodes : List Terminal) (i k : ℕ) (net : Net),
    (∀ j n, nodes[j]? = some n → Carried net (inode (k + j)) [⟨c, i + j⟩, n]) →
    (∀ j < nodes.length, x ≠ inode (k + j)) →
    (List.range' i nodes.length).foldlM (fun net i => renameConnected net ⟨c, i⟩ x) net =
      some { net with name := fun t => if t ∈ nodes then x else net.name t }
  | [], _, _, net, _, _ => by simp
  | n :: nodes, i, k, net, hpair, hx => by
    have hn : Carried net (inode k) [⟨c, i⟩, n] := hpair 0 n rfl
    have hname := ((hn.mem n).mp (by simp)).2
    have hrest : ∀ j m, nodes[j]? = some m →
        Carried (net.setName n x) (inode (k + 1 + j)) [⟨c, i + 1 + j⟩, m] := by
      intro j m hj
      have hm := hpair (j + 1) m (by simpa using hj)
      rw [show k + (j + 1) = k + 1 + j by omega, show i + (j + 1) = i + 1 + j by omega] at hm
      refine hm.setName ?_ ?_
      · intro hmem
        have := inode_injective (hname.symm.trans ((hm.mem n).mp hmem).2)
        omega
      · have hj' := (List.getElem?_eq_some_iff.mp hj).1
        have := hx (j + 1) (Nat.succ_lt_succ hj')
        rwa [show k + (j + 1) = k + 1 + j by omega] at this
    have hx' : ∀ j < nodes.length, x ≠ inode (k + 1 + j) := by
      intro j hj
      have := hx (j + 1) (Nat.succ_lt_succ hj)
      rwa [show k + (j + 1) = k + 1 + j by omega] at this
    have ih := rename_nodes nodes (i + 1) (k + 1) (net.setName n x) hrest hx'
    rw [length_cons, range'_succ, foldlM_cons, renameConnected,
      hn.findConnectedNode, map_some, bind_eq_bind, bind_some, ih]
    congr 2
    funext t
    rw [setName_name]
    by_cases htn : t = n
    · simp [htn]
    · simp [htn]

variable {net' : Net} {o : Circuit}

theorem Adds.existing (h : Adds net net' o) (hc : Existing net c) : Existing net' c := by
  intro i hi
  rw [h.inserted]
  exact (hc i hi).trans (Nat.lt_succ_self _)

theorem Adds.existing_self (h : Adds net net' o) : Existing net' (.inserted net.inserted) := by
  intro i hi
  cases hi
  rw [h.inserted]
  exact Nat.lt_succ_self _

/-- A dropped circuit leaves everything as it was before the insertion as soon
as the names are. -/
theorem Same.discard {net net' now now' : Net} (h : Same net' now)
    (hadds : Adds net net' o) (hroot : now'.root = now.root) (hcircuit : now'.circuit = now.circuit)
    (hname : ∀ t, Existing net t.circuit → now'.name t = net.name t) :
    Same net (discard now' (.inserted net.inserted)) where
  root := by
    show now'.root.erase _ = _
    rw [hroot, h.root, hadds.root, erase_cons_head]
  circuit := by
    intro c hc
    show update now'.circuit _ _ c = _
    rw [update_of_ne hc.ne, hcircuit, h.circuit c (hadds.existing hc), hadds.circuit_of_ne hc.ne]
  name := hname

section Undo

variable {net net' now : Net}

theorem Connects.undo {o : Circuit} {nodes : List Terminal} {x : String}
    (h : Connects net net' o nodes x) (hf : Fresh net) (hf' : Fresh net')
    (hnodes : ∀ n ∈ nodes, n ∈ net.terminals ∧ net.name n = x)
    (hx : ∀ j, net.insertedNodes ≤ j → x ≠ inode j) (hsame : Same net' now) :
    ∃ now', dropConnector (List.range' 1 nodes.length) now (.inserted net.inserted) = some now' ∧
      Same net now' := by
  have hfirst : now.name ⟨.inserted net.inserted, 0⟩ = x := by
    rw [hsame.name _ h.adds.existing_self, h.first]
  have hpairs : ∀ j n, nodes[j]? = some n →
      Carried now (inode (net.insertedNodes + j)) [⟨.inserted net.inserted, 1 + j⟩, n] := by
    intro j n hj
    rw [Nat.add_comm 1 j]
    exact hsame.carried hf' (h.paired hf (fun n hn => (hnodes n hn).1) hx hj)
  have hrename := rename_nodes nodes 1 net.insertedNodes now hpairs
    fun j _ => hx _ (Nat.le_add_right _ _)
  refine ⟨discard { now with name := fun t => if t ∈ nodes then x else now.name t }
    (.inserted net.inserted), ?_, ?_⟩
  · rw [dropConnector, hfirst, hrename, map_some]
  · refine hsame.discard h.adds rfl rfl ?_
    intro t ht
    show (if t ∈ nodes then x else now.name t) = net.name t
    split_ifs with htn
    · exact (hnodes t htn).2.symm
    · rw [hsame.name t (h.adds.existing ht), h.others t ht.ne htn]

theorem Grounds.undo {n : Terminal} (h : Grounds net net' n) (hf : Fresh net) (hf' : Fresh net')
    (hn : n ∈ net.terminals) (hgnd : net.name n = "gnd") (hsame : Same net' now) :
    ∃ now', dropGround now (.inserted net.inserted) = some now' ∧ Same net now' := by
  have hfind := (hsame.carried hf' (h.paired hf hn)).findConnectedNode
  refine ⟨_, by rw [dropGround, renameConnected, hfind]; rfl, ?_⟩
  refine hsame.discard h.adds rfl rfl ?_
  intro t ht
  rw [setName_name]
  by_cases htn : t = n
  · rw [htn, update_self, hgnd]
  · rw [update_of_ne htn, hsame.name t (h.adds.existing ht), h.others t ht.ne htn]

theorem Transforms.undo {p : Id} (h : Transforms net net' p) (hf : Fresh net) (hf' : Fresh net')
    (hp : ∀ i < 2, (⟨p, i⟩ : Terminal) ∈ net.terminals) (hsame : Same net' now) :
    ∃ now', dropDifferentialPort now (.inserted net.inserted) = some now' ∧ Same net now' := by
  have hfind := (hsame.carried hf' (h.paired hf hp)).findConnectedNode
  refine ⟨_, by rw [dropDifferentialPort, hfind]; rfl, ?_⟩
  refine hsame.discard h.adds rfl rfl ?_
  intro t ht
  rw [setName_name, setName_name, hsame.name _ h.adds.existing_self, h.second,
    hsame.name _ h.adds.existing_self, h.third]
  by_cases h1 : t = ⟨p, 1⟩
  · rw [h1, update_self]
  by_cases h0 : t = ⟨p, 0⟩
  · rw [update_of_ne h1, h0, update_self]
  · rw [update_of_ne h1, update_of_ne h0, hsame.name t (h.adds.existing ht), h.others t ht.ne h0 h1]

/-- **One drop**: it takes back the insertion before it. -/
theorem Inserts.undo (h : Inserts net net') (hf : Fresh net) (hsame : Same net' now) :
    ∃ now', dropLast now (.inserted net.inserted) = some now' ∧ Same net now' := by
  have hf' := (h.extends hf).fresh
  have htype : ∀ {o : Circuit}, Adds net net' o →
      (now.circuit (.inserted net.inserted)).type = o.type := by
    intro o hadds
    rw [hsame.circuit _ hadds.existing_self, hadds.circuit_self, register_type]
  cases h with
  | @connector o nodes x kind h hnodes hmem =>
    obtain ⟨n, hn, hname⟩ := hmem
    have hundo := h.undo hf hf' hnodes (hname ▸ hf.names n hn) hsame
    have htype := htype h.adds
    rw [dropLast, htype]
    generalize nodes.length = k at kind hundo
    cases kind with
    | tee => exact hundo
    | cross => exact hundo
    | opened => exact hundo
  | port h hmem =>
    rw [dropLast, htype h.adds]
    exact h.undo hf hf' hmem hsame
  | ground h hmem hgnd =>
    rw [dropLast, htype h.adds]
    exact h.undo hf hf' hmem hgnd hsame

end Undo

/-! ## All drops -/

theorem foldl_getInserted_of_le : ∀ (l : List Id), (∀ d ∈ l, getInserted d ≤ getInserted c) →
    l.foldl (fun (s : ℤ × Option Id) c =>
      if getInserted c > s.1 then (getInserted c, some c) else s) (getInserted c, some c) =
      (getInserted c, some c)
  | [], _ => rfl
  | d :: l, h => by
    rw [foldl_cons, if_neg (not_lt.mpr (h d mem_cons_self))]
    exact foldl_getInserted_of_le l fun e he => h e (mem_cons_of_mem _ he)

variable {now : Net}

theorem lastInserted_of_adds (hadds : Adds net net' o) (hf : Fresh net)
    (hroot : now.root = net'.root) : lastInserted now = some (.inserted net.inserted) := by
  have hle : ∀ d ∈ net.root, getInserted d ≤ getInserted (.inserted net.inserted) := by
    intro d hd
    cases d with
    | inserted i => exact Int.ofNat_le.mpr (hf.inserted i hd).le
    | original i => exact (by simp : (-1 : ℤ) ≤ net.inserted)
    | reduced i => exact (by simp : (-1 : ℤ) ≤ net.inserted)
  have hpos : getInserted (.inserted net.inserted) > -1 := by
    show (net.inserted : ℤ) > -1
    omega
  rw [lastInserted, hroot, hadds.root, foldl_cons, if_pos hpos, foldl_getInserted_of_le _ hle]

theorem lastInserted_eq_none (h : ∀ c ∈ net.root, getInserted c = -1) :
    lastInserted net = none := by
  have hfold : ∀ l : List Id, (∀ c ∈ l, getInserted c = -1) →
      l.foldl (fun (s : ℤ × Option Id) c =>
        if getInserted c > s.1 then (getInserted c, some c) else s) (-1, none) = (-1, none) := by
    intro l hl
    induction l with
    | nil => rfl
    | cons c l ih =>
      rw [foldl_cons, if_neg (by simp [hl c mem_cons_self])]
      exact ih fun d hd => hl d (mem_cons_of_mem _ hd)
  rw [lastInserted, hfold _ h]

/-- **All drops**: they end, with the net from before the insertions. -/
theorem dropAll_run (h : Relation.ReflTransGen Inserts net net')
    (hf : Fresh net) (hnone : ∀ c ∈ net.root, getInserted c = -1) (hsame : Same net' now) :
    ∃ k now', (∀ fuel, k < fuel → dropAll fuel now = some now') ∧ Same net now' := by
  induction h generalizing now with
  | refl =>
    refine ⟨0, now, ?_, hsame⟩
    intro fuel hfuel
    obtain ⟨fuel, rfl⟩ := Nat.exists_eq_succ_of_ne_zero hfuel.ne'
    rw [dropAll, lastInserted_eq_none (by rwa [hsame.root])]
  | @tail mid last hrun hstep ih =>
    have hfmid := (extends_of_run hrun hf).fresh
    obtain ⟨o, hadds, -⟩ := hstep.step hfmid
    obtain ⟨now₁, hdrop, hsame₁⟩ := hstep.undo hfmid hsame
    obtain ⟨k, now', hrest, hsame'⟩ := ih hsame₁
    refine ⟨k + 1, now', ?_, hsame'⟩
    intro fuel hfuel
    obtain ⟨fuel, rfl⟩ := Nat.exists_eq_succ_of_ne_zero (Nat.ne_of_gt (Nat.zero_lt_of_lt hfuel))
    rw [dropAll, lastInserted_of_adds hadds.adds hfmid hsame.root]
    dsimp only
    rw [hdrop, bind_some]
    exact hrest fuel (Nat.lt_of_succ_lt_succ hfuel)

/-- **Undone exactly**: after `dropConnections` the circuits of the netlist are
in the list and no others, and every circuit and every name is as before. -/
theorem dropConnections_insertConnections (net : Netlist) (hnames : net.UserNames)
    (gnd : Option Id) :
    ∃ k s, (∀ fuel, k < fuel →
        dropConnections fuel (insertConnections ⟨net.toNet, gnd⟩) = some s) ∧
      s.net.root.Perm net.root ∧ (∀ c ∈ s.net.root, getInserted c = -1) ∧
      ∀ c ∈ net.root, s.net.circuit c = net.circuit c ∧
        ∀ i, s.net.name ⟨c, i⟩ = net.name ⟨c, i⟩ := by
  obtain ⟨g, hg, hground⟩ := net.ground
  have htype := (hground g hg).mpr rfl
  have hgrounded := net.prepared_grounded hnames hg htype gnd
  have hf := net.removeGround_fresh hnames g
  have horiginal : ∀ c ∈ net.root, getInserted c = -1 := by
    intro c hc
    obtain ⟨⟨i, rfl⟩, -⟩ := net.original c hc
    rfl
  obtain ⟨k, now, hdrop, hsame⟩ := dropAll_run hgrounded.run hf
    (fun c hc => horiginal c (mem_of_mem_erase hc)) ⟨rfl, fun _ _ => rfl, fun _ _ => rfl⟩
  have hgnd : (insertConnections ⟨net.toNet, gnd⟩).gnd = some g := by
    rw [insertConnections, net.removeGround_eq hg htype]
  refine ⟨k, { net := now.insertCircuit g, gnd := some g }, ?_, ?_, ?_, ?_⟩
  · intro fuel hfuel
    rw [Netlist.prepared] at hdrop
    simp only [dropConnections, hdrop fuel hfuel, hgnd, bind_eq_bind, bind_some]
  · rw [insertCircuit_root, hsame.root]
    exact (perm_cons_erase hg).symm
  · intro c hc
    rw [insertCircuit_root, hsame.root] at hc
    exact horiginal c ((perm_cons_erase hg).mem_iff.mpr hc)
  · intro c hc
    have hexisting : Existing (net.removeCircuit g false) c := by
      obtain ⟨⟨i, rfl⟩, -⟩ := net.original c hc
      intro j hj
      cases hj
    refine ⟨?_, fun i => hsame.name ⟨c, i⟩ hexisting⟩
    have hcircuit : now.circuit c = net.circuit c := hsame.circuit c hexisting
    rw [insertCircuit_circuit]
    by_cases hcg : c = g
    · rw [hcg, update_self, ← hcg, hcircuit, net.counts.register hc]
    · rw [update_of_ne hcg, hcircuit]

theorem dropConnections_fanOut :
    ∃ k s, (∀ fuel, k < fuel →
        dropConnections fuel (insertConnections ⟨fanOut.toNet, none⟩) = some s) ∧
      s.net.root.Perm fanOut.root ∧ (∀ c ∈ s.net.root, getInserted c = -1) ∧
      ∀ c ∈ fanOut.root, s.net.circuit c = fanOut.circuit c ∧
        ∀ i, s.net.name ⟨c, i⟩ = fanOut.name ⟨c, i⟩ :=
  dropConnections_insertConnections fanOut fanOut_userNames none

end Qucs.Network
