/-
# What one inserted circuit changes

A tee, a cross or an open, a transformer before a port, a ground: each of them
is one new circuit at the head of the list and some new names. The loops of
`insertConnections` are sequences of such steps (`Inserts`), so what every step
keeps is kept by the whole preparation.

* tee, cross, open: `Connects`, the connector has the old name, the given nodes share
  new names with it
* transformer: `Transforms`, it has the names of the port, the port shares a new name
  with it
* ground: `Grounds`, the node shares a new name with it
-/
import Qucs.Network.Connectors

namespace Qucs.Network

open Net List Function

/-! ## Who carries a name -/

/-- The nodes with the name `x` are those of the list. -/
structure Carried (net : Net) (x : String) (L : List Terminal) : Prop where
  nodup : L.Nodup
  mem : ∀ t, t ∈ L ↔ t ∈ net.terminals ∧ net.name t = x

def Paired (net : Net) (x : String) : Prop := ∃ a b, Carried net x [a, b]

variable {net : Net} {x : String}

theorem Carried.perm {L : List Terminal} (h : Carried net x L)
    (hroot : net.root.Nodup) : (net.carriers x).Perm L := by
  refine (perm_ext_iff_of_nodup ((net.nodup_terminals hroot).filter _) h.nodup).mpr ?_
  intro t
  rw [h.mem]
  exact net.mem_carriers

theorem Carried.congr {L L' : List Terminal} (h : Carried net x L)
    (hp : L.Perm L') : Carried net x L' :=
  ⟨hp.nodup_iff.mp h.nodup, fun t => (hp.mem_iff).symm.trans (h.mem t)⟩

/-- A net on which new circuits and new names are new. -/
structure Fresh (net : Net) : Prop where
  nodup : net.root.Nodup
  inserted : ∀ i, Id.inserted i ∈ net.root → i < net.inserted
  names : ∀ t ∈ net.terminals, ∀ j, net.insertedNodes ≤ j → net.name t ≠ inode j

theorem Fresh.not_mem (h : Fresh net) : Id.inserted net.inserted ∉ net.root :=
  fun hmem => (h.inserted _ hmem).false

/-! ## A new circuit -/

/-- But for names, `net'` is `net` with a new circuit `o` in it. -/
def Adds (net net' : Net) (o : Circuit) : Prop :=
  net' = { (net.insertedCircuit o).insertCircuit (.inserted net.inserted) with
    name := net'.name
    insertedNodes := net'.insertedNodes }

section Adds

variable {net net' : Net} {o : Circuit}

def NoGround (net : Net) : Prop := ∀ c ∈ net.root, (net.circuit c).type ≠ .ground

theorem Fresh.circuit_ne (hf : Fresh net) {t : Terminal} (ht : t ∈ net.terminals) :
    t.circuit ≠ .inserted net.inserted :=
  fun hc => hf.not_mem (hc ▸ (net.mem_terminals.mp ht).1)

variable (h : Adds net net' o)
include h

theorem Adds.root : net'.root = .inserted net.inserted :: net.root := by
  rw [h]
  rfl

theorem Adds.inserted : net'.inserted = net.inserted + 1 := by
  rw [h]
  rfl

theorem Adds.drop : net'.drop = net.drop := by
  rw [h]
  rfl

theorem Adds.circuit_self :
    net'.circuit (.inserted net.inserted) = net.register o := by
  rw [h]
  simp [insertCircuit_circuit, register, insertedCircuit]

theorem Adds.circuit_of_ne {d : Id} (hd : d ≠ .inserted net.inserted) :
    net'.circuit d = net.circuit d := by
  rw [h]
  simp [insertCircuit_circuit, insertedCircuit_circuit, hd]

theorem Adds.circuit_of_mem (hf : Fresh net) {d : Id} (hd : d ∈ net.root) :
    net'.circuit d = net.circuit d := by
  refine h.circuit_of_ne ?_
  rintro rfl
  exact hf.not_mem hd

theorem Adds.counts (hf : Fresh net) (hport : o.port = 0)
    (htype : o.type ≠ .pac) (hc : Counts net) : Counts net' := by
  have hnew : Counts (net.insertedCircuit o) := by
    refine hc.congr (fun d hd => ?_) rfl rfl rfl rfl
    rw [insertedCircuit_circuit, update_of_ne]
    rintro rfl
    exact hf.not_mem hd
  have hself : (net.insertedCircuit o).circuit (.inserted net.inserted) = o := by
    rw [insertedCircuit_circuit, update_self]
  have hins : Counts ((net.insertedCircuit o).insertCircuit (.inserted net.inserted)) := by
    refine hnew.insertCircuit hf.not_mem ?_
    rw [hself, register_port _ htype]
    simp [hport, htype]
  rw [h]
  exact hins.congr (fun _ _ => rfl) rfl rfl rfl rfl

theorem Adds.mem_terminals (hf : Fresh net) {t : Terminal} :
    t ∈ net'.terminals ↔
      (t.circuit = .inserted net.inserted ∧ t.index < o.size) ∨ t ∈ net.terminals := by
  rw [Net.mem_terminals, Net.mem_terminals, h.root, mem_cons]
  by_cases ht : t.circuit = .inserted net.inserted
  · rw [ht, h.circuit_self, register_size]
    simp [hf.not_mem]
  · rw [h.circuit_of_ne ht]
    simp [ht]

theorem Adds.noGround (hf : Fresh net) (htype : o.type ≠ .ground)
    (hg : NoGround net) : NoGround net' := by
  intro c hc
  rw [h.root] at hc
  rcases mem_cons.mp hc with rfl | hc
  · rw [h.circuit_self, register_type]
    exact htype
  · rw [h.circuit_of_mem hf hc]
    exact hg c hc

end Adds

/-- One new circuit, with names from the net, new ones and that of the ground of
the ports. -/
structure Step (net net' : Net) (o : Circuit) : Prop where
  adds : Adds net net' o
  le : net.insertedNodes ≤ net'.insertedNodes
  names : ∀ t ∈ net'.terminals, (∃ u ∈ net.terminals, net'.name t = net.name u) ∨
    (∃ j, j < net'.insertedNodes ∧ net'.name t = inode j) ∨ net'.name t = "PacGround"

variable {o : Circuit}

theorem Step.fresh {net net' : Net} (h : Step net net' o) (hf : Fresh net) : Fresh net' where
  nodup := by
    rw [h.adds.root]
    exact nodup_cons.mpr ⟨hf.not_mem, hf.nodup⟩
  inserted := by
    intro i hi
    rw [h.adds.root] at hi
    rw [h.adds.inserted]
    rcases mem_cons.mp hi with heq | hi
    · cases heq
      exact Nat.lt_succ_self _
    · exact (hf.inserted i hi).trans (Nat.lt_succ_self _)
  names := by
    intro t ht j hj
    rcases h.names t ht with ⟨u, hu, hname⟩ | ⟨i, hi, hname⟩ | hname
    · rw [hname]
      exact hf.names u hu j (h.le.trans hj)
    · rw [hname]
      intro heq
      exact (hi.trans_le hj).ne (inode_injective heq)
    · rw [hname]
      exact (inode_ne (by decide)).symm

/-! ## Tees, crosses and opens -/

/-- What a tee, a cross or an open changes: its first node has the name `x`, and
each of the given nodes shares a new name with another node of it. -/
structure Connects (net net' : Net) (o : Circuit) (nodes : List Terminal) (x : String) : Prop where
  adds : Adds net net' o
  size : o.size = nodes.length + 1
  insertedNodes : net'.insertedNodes = net.insertedNodes + nodes.length
  first : net'.name ⟨.inserted net.inserted, 0⟩ = x
  new : ∀ j < nodes.length,
    net'.name ⟨.inserted net.inserted, j + 1⟩ = inode (net.insertedNodes + j)
  renamed : ∀ j n, nodes[j]? = some n → net'.name n = inode (net.insertedNodes + j)
  others : ∀ t, t.circuit ≠ .inserted net.inserted → t ∉ nodes → net'.name t = net.name t

theorem attach_eq (c : Id) : ∀ (i : ℕ) (nodes : List Terminal) (net : Net),
    attach c i nodes net = { net with
      name := (attach c i nodes net).name
      insertedNodes := (attach c i nodes net).insertedNodes }
  | _, [], _ => rfl
  | i, n :: nodes, net => by
    exact attach_eq c (i + 1) nodes _

@[simp] theorem attach_insertedNodes (c : Id) : ∀ (i : ℕ) (nodes : List Terminal) (net : Net),
    (attach c i nodes net).insertedNodes = net.insertedNodes + nodes.length
  | _, [], _ => rfl
  | i, n :: nodes, net => by
    rw [attach, attach_insertedNodes c (i + 1) nodes, length_cons]
    show net.insertedNodes + 1 + nodes.length = _
    omega

theorem attach_others (c : Id) {t : Terminal} : ∀ (i : ℕ) (nodes : List Terminal) (net : Net),
    t ∉ nodes → (t.circuit = c → t.index < i) → (attach c i nodes net).name t = net.name t
  | _, [], _, _, _ => rfl
  | i, n :: nodes, net, ht, hi => by
    obtain ⟨hn, hnodes⟩ := not_or.mp (mem_cons.not.mp ht)
    have hc : t ≠ ⟨c, i⟩ := by
      rintro rfl
      exact (hi rfl).false
    rw [attach, attach_others c (i + 1) nodes _ hnodes fun h => Nat.lt_succ_of_lt (hi h)]
    rw [setName_name, update_of_ne hn, insertedNode_name, update_of_ne hc]

/-- The given nodes and those of the connector get the same new names. -/
theorem attach_names (c : Id) : ∀ (i : ℕ) (nodes : List Terminal) (net : Net), nodes.Nodup →
    (∀ n ∈ nodes, n.circuit ≠ c) → ∀ j n, nodes[j]? = some n →
      (attach c i nodes net).name n = inode (net.insertedNodes + j) ∧
      (attach c i nodes net).name ⟨c, i + j⟩ = inode (net.insertedNodes + j)
  | _, [], _, _, _, j, n, hj => by simp at hj
  | i, m :: nodes, net, hnd, hne, j, n, hj => by
    obtain ⟨hm, hnodes⟩ := nodup_cons.mp hnd
    have hmc : m ≠ ⟨c, i⟩ := by
      rintro rfl
      exact hne _ mem_cons_self rfl
    cases j with
    | zero =>
      cases hj
      have hci : ⟨c, i⟩ ∉ nodes := fun h => hne _ (mem_cons_of_mem _ h) rfl
      simp only [attach, Nat.add_zero]
      rw [attach_others c (i + 1) nodes _ hm fun h => absurd h (hne m mem_cons_self),
        attach_others c (i + 1) nodes _ hci fun _ => Nat.lt_succ_self i]
      rw [setName_name, update_self, update_of_ne hmc.symm, insertedNode_name, update_self]
      exact ⟨rfl, rfl⟩
    | succ j =>
      have h := attach_names c (i + 1) nodes ((net.insertedNode ⟨c, i⟩).setName m
        ((net.insertedNode ⟨c, i⟩).name ⟨c, i⟩)) hnodes
        (fun n hn => hne n (mem_cons_of_mem _ hn)) j n (by simpa using hj)
      have hk : net.insertedNodes + 1 + j = net.insertedNodes + (j + 1) := by omega
      have hi : i + 1 + j = i + (j + 1) := by omega
      rw [setName_insertedNodes, insertedNode_insertedNodes, hk, hi] at h
      exact h

theorem insertConnector_connects {nodes : List Terminal} (hsize : o.size = nodes.length + 1)
    (hnd : nodes.Nodup) (hne : ∀ n ∈ nodes, n.circuit ≠ .inserted net.inserted) :
    Connects net (insertConnector o net nodes x) o nodes x := by
  have hnew : ⟨.inserted net.inserted, 0⟩ ∉ nodes := fun h => hne _ h rfl
  have hnames := attach_names (.inserted net.inserted) 1 nodes
    ((net.insertedCircuit o).setName ⟨.inserted net.inserted, 0⟩ x) hnd hne
  constructor
  case adds =>
    rw [Adds, insertConnector, attach_eq]
    rfl
  case size => exact hsize
  case insertedNodes => simp [insertConnector]
  case first =>
    rw [insertConnector, insertCircuit_name, attach_others _ _ _ _ hnew fun _ => Nat.zero_lt_one,
      setName_name, update_self]
  case new =>
    intro j hj
    rw [insertConnector, insertCircuit_name, Nat.add_comm]
    exact (hnames j _ (getElem?_eq_getElem hj)).2
  case renamed =>
    intro j n hj
    exact (hnames j n hj).1
  case others =>
    intro t ht htn
    have ht0 : t ≠ ⟨.inserted net.inserted, 0⟩ := by
      rintro rfl
      exact ht rfl
    rw [insertConnector, insertCircuit_name, attach_others _ _ _ _ htn fun h => absurd h ht,
      setName_name, update_of_ne ht0, insertedCircuit_name]

section Connects

variable {net net' : Net} {o : Circuit} {nodes : List Terminal} {x : String}

theorem Connects.cases (h : Connects net net' o nodes x) (hf : Fresh net)
    (hmem : ∀ n ∈ nodes, n ∈ net.terminals) {t : Terminal} :
    t ∈ net'.terminals ↔
      (t = ⟨.inserted net.inserted, 0⟩ ∧ net'.name t = x) ∨
      (∃ j < nodes.length, t = ⟨.inserted net.inserted, j + 1⟩ ∧
        net'.name t = inode (net.insertedNodes + j)) ∨
      (∃ j, nodes[j]? = some t ∧ net'.name t = inode (net.insertedNodes + j)) ∨
      (t ∈ net.terminals ∧ t ∉ nodes ∧ net'.name t = net.name t) := by
  rw [h.adds.mem_terminals hf, h.size]
  constructor
  · rintro (⟨hc, hi⟩ | ht)
    · obtain ⟨c, i⟩ := t
      obtain rfl := hc
      cases i with
      | zero => exact .inl ⟨rfl, h.first⟩
      | succ j =>
        have hj := Nat.lt_of_succ_lt_succ hi
        exact .inr (.inl ⟨j, hj, rfl, h.new j hj⟩)
    · by_cases hn : t ∈ nodes
      · obtain ⟨j, hj⟩ := mem_iff_getElem?.mp hn
        exact .inr (.inr (.inl ⟨j, hj, h.renamed j t hj⟩))
      · exact .inr (.inr (.inr ⟨ht, hn, h.others t (hf.circuit_ne ht) hn⟩))
  · rintro (⟨rfl, -⟩ | ⟨j, hj, rfl, -⟩ | ⟨j, hj, -⟩ | ⟨ht, -, -⟩)
    · exact .inl ⟨rfl, Nat.succ_pos _⟩
    · exact .inl ⟨rfl, Nat.succ_lt_succ hj⟩
    · exact .inr (hmem t (mem_of_getElem? hj))
    · exact .inr ht

section

variable (h : Connects net net' o nodes x) (hf : Fresh net) (hmem : ∀ n ∈ nodes, n ∈ net.terminals)
include h hf hmem

theorem Connects.step (hx : ∃ n ∈ net.terminals, net.name n = x) :
    Step net net' o where
  adds := h.adds
  le := h.insertedNodes ▸ Nat.le_add_right _ _
  names := by
    intro t ht
    rw [h.insertedNodes]
    rcases (h.cases hf hmem).mp ht with ⟨-, hname⟩ | ⟨j, hj, -, hname⟩ | ⟨j, hj, hname⟩ |
      ⟨ht, -, hname⟩
    · obtain ⟨n, hn, rfl⟩ := hx
      exact .inl ⟨n, hn, hname⟩
    · exact .inr (.inl ⟨_, Nat.add_lt_add_left hj _, hname⟩)
    · have hj := (List.getElem?_eq_some_iff.mp hj).1
      exact .inr (.inl ⟨_, Nat.add_lt_add_left hj _, hname⟩)
    · exact .inl ⟨t, ht, hname⟩

/-- The given nodes give the name up to the connector. -/
theorem Connects.carried (hx : ∀ j, net.insertedNodes ≤ j → x ≠ inode j) {L : List Terminal}
    (hL : Carried net x L) :
    Carried net' x (⟨.inserted net.inserted, 0⟩ :: L.filter (· ∉ nodes)) := by
  constructor
  · refine nodup_cons.mpr ⟨?_, hL.nodup.filter _⟩
    intro hc
    have ht := ((hL.mem _).mp (mem_filter.mp hc).1).1
    exact hf.not_mem (net.mem_terminals.mp ht).1
  · intro t
    rw [mem_cons, mem_filter, hL.mem, h.cases hf hmem]
    constructor
    · rintro (rfl | ⟨⟨ht, hname⟩, hn⟩)
      · exact ⟨.inl ⟨rfl, h.first⟩, h.first⟩
      · have hn : t ∉ nodes := by simpa using hn
        have hsame := h.others t (hf.circuit_ne ht) hn
        exact ⟨.inr (.inr (.inr ⟨ht, hn, hsame⟩)), hsame.trans hname⟩
    · rintro ⟨⟨rfl, -⟩ | ⟨j, -, -, hj⟩ | ⟨j, -, hj⟩ | ⟨ht, hn, hsame⟩, hname⟩
      · exact .inl rfl
      · exact absurd (hname.symm.trans hj) (hx _ (Nat.le_add_right _ _))
      · exact absurd (hname.symm.trans hj) (hx _ (Nat.le_add_right _ _))
      · exact .inr ⟨⟨ht, hsame.symm.trans hname⟩, by simpa using hn⟩

theorem Connects.paired (hx : ∀ j, net.insertedNodes ≤ j → x ≠ inode j) {j : ℕ} {n : Terminal}
    (hj : nodes[j]? = some n) :
    Carried net' (inode (net.insertedNodes + j)) [⟨.inserted net.inserted, j + 1⟩, n] := by
  have hlt := (List.getElem?_eq_some_iff.mp hj).1
  have hn := hmem n (mem_of_getElem? hj)
  constructor
  · refine nodup_cons.mpr ⟨?_, nodup_singleton n⟩
    intro heq
    cases mem_singleton.mp heq
    exact hf.not_mem (net.mem_terminals.mp hn).1
  · intro t
    rw [mem_cons, mem_singleton, h.cases hf hmem]
    constructor
    · rintro (rfl | rfl)
      · exact ⟨.inr (.inl ⟨j, hlt, rfl, h.new j hlt⟩), h.new j hlt⟩
      · exact ⟨.inr (.inr (.inl ⟨j, hj, h.renamed j t hj⟩)), h.renamed j t hj⟩
    · rintro ⟨⟨rfl, hxn⟩ | ⟨i, -, rfl, hi⟩ | ⟨i, hi, hname⟩ | ⟨ht, -, hsame⟩, heq⟩
      · exact absurd (hxn.symm.trans heq) (hx _ (Nat.le_add_right _ _))
      · obtain rfl := Nat.add_left_cancel (inode_injective (hi.symm.trans heq))
        exact .inl rfl
      · obtain rfl := Nat.add_left_cancel (inode_injective (hname.symm.trans heq))
        exact .inr (Option.some.inj (hi.symm.trans hj))
      · exact absurd (hsame.symm.trans heq) (hf.names t ht _ (Nat.le_add_right _ _))

end

/-- With the name on `n`, the given nodes and others, the connector comes in
the place of the given nodes. -/
theorem Connects.replaces (h : Connects net net' o nodes x) (hf : Fresh net)
    (hx : ∀ j, net.insertedNodes ≤ j → x ≠ inode j) {n : Terminal} {later : List Terminal}
    (hL : Carried net x (n :: nodes ++ later)) :
    Carried net' x (n :: ⟨.inserted net.inserted, 0⟩ :: later) := by
  have hmem := fun m hm => ((hL.mem m).mp (mem_append_left _ (mem_cons_of_mem _ hm))).1
  obtain ⟨hn, -⟩ := nodup_cons.mp (List.Nodup.of_append_left hL.nodup)
  have hlater : ∀ m ∈ later, m ∉ nodes := fun m hm hmem =>
    disjoint_of_nodup_append hL.nodup (mem_cons_of_mem _ hmem) hm
  have hfilter : (n :: nodes ++ later).filter (· ∉ nodes) = n :: later := by
    rw [filter_append, filter_cons_of_pos (by simpa using hn),
      filter_eq_nil_iff.mpr (fun m hm => by simpa using hm),
      filter_eq_self.mpr (by simpa using hlater), singleton_append]
  have hc := h.carried hf hmem hx hL
  rw [hfilter] at hc
  exact hc.congr (.swap _ _ _)

end Connects

/-- Of two nodes with a name each is connected to the other. -/
theorem Carried.findConnectedNode {n m : Terminal}
    (h : Carried net x [n, m]) : net.findConnectedNode n = some m := by
  have hnm : m ≠ n := by
    rintro rfl
    simpa using h.nodup
  obtain ⟨hn, hxn⟩ := (h.mem n).mp (by simp)
  obtain ⟨hm, hxm⟩ := (h.mem m).mp (by simp)
  have honly : ∀ t ∈ net.terminals, net.name t = net.name n ∧ t ≠ n → t = m := by
    rintro t ht ⟨hname, hne⟩
    have := (h.mem t).mpr ⟨ht, hname.trans hxn⟩
    simpa [hne] using this
  cases hfind : net.findConnectedNode n with
  | none =>
    have := find?_eq_none.mp hfind m hm
    simp [hxn, hxm, hnm] at this
  | some t =>
    have hp := find?_some hfind
    rw [honly t (mem_of_find?_eq_some hfind) (by simpa using hp)]

variable {n : Terminal}

theorem Carried.findConnectedNode_alone
    (h : Carried net x [n]) : net.findConnectedNode n = none := by
  obtain ⟨-, hxn⟩ := (h.mem n).mp (by simp)
  refine find?_eq_none.mpr ?_
  intro t ht hp
  obtain ⟨hname, hne⟩ : net.name t = net.name n ∧ t ≠ n := by simpa using hp
  exact hne (mem_singleton.mp ((h.mem t).mpr ⟨ht, hname.trans hxn⟩))

/-! ## Transformers and grounds -/

/-- A port gets a transformer. -/
structure Transforms (net net' : Net) (p : Id) : Prop where
  adds : Adds net net' (.create .itrafo 3 0)
  insertedNodes : net'.insertedNodes = net.insertedNodes + 1
  first : net'.name ⟨.inserted net.inserted, 0⟩ = inode net.insertedNodes
  second : net'.name ⟨.inserted net.inserted, 1⟩ = net.name ⟨p, 0⟩
  third : net'.name ⟨.inserted net.inserted, 2⟩ = net.name ⟨p, 1⟩
  port : net'.name ⟨p, 0⟩ = inode net.insertedNodes
  ground : net'.name ⟨p, 1⟩ = "PacGround"
  others : ∀ t, t.circuit ≠ .inserted net.inserted → t ≠ ⟨p, 0⟩ → t ≠ ⟨p, 1⟩ →
    net'.name t = net.name t

/-- A node gets a ground. -/
structure Grounds (net net' : Net) (n : Terminal) : Prop where
  adds : Adds net net' (.create .ground 1 0)
  insertedNodes : net'.insertedNodes = net.insertedNodes + 1
  first : net'.name ⟨.inserted net.inserted, 0⟩ = inode net.insertedNodes
  node : net'.name n = inode net.insertedNodes
  others : ∀ t, t.circuit ≠ .inserted net.inserted → t ≠ n → net'.name t = net.name t

theorem insertDifferentialPort_transforms {p : Id} (hport : (net.circuit p).port ≠ 0)
    (hp : p ≠ .inserted net.inserted) : Transforms net (insertDifferentialPort net p) p := by
  have hne : ∀ i j, (⟨.inserted net.inserted, i⟩ : Terminal) ≠ ⟨p, j⟩ := fun i j h =>
    hp (congrArg Terminal.circuit h).symm
  have hidx : ∀ (c : Id) (i j : ℕ), (⟨c, i⟩ : Terminal) = ⟨c, j⟩ ↔ i = j := by simp
  rw [insertDifferentialPort, if_pos hport]
  constructor
  case adds => rfl
  case insertedNodes => rfl
  case others =>
    intro t ht h0 h1
    have hc : ∀ i, t ≠ ⟨.inserted net.inserted, i⟩ := fun i h =>
      ht (congrArg Terminal.circuit h)
    simp [setName_name, insertedNode_name, h0, h1, hc]
  all_goals simp [setName_name, insertedNode_name, hne, (hne _ _).symm, hidx]

theorem insertGround_grounds (hgnd : net.name n = "gnd")
    (hport : (net.circuit n.circuit).port = 0) (htype : (net.circuit n.circuit).type ≠ .ground)
    (hn : n.circuit ≠ .inserted net.inserted) : Grounds net (insertGround net n) n := by
  have hne : ⟨.inserted net.inserted, 0⟩ ≠ n := fun h =>
    hn (congrArg Terminal.circuit h).symm
  rw [insertGround, if_pos ⟨hgnd, hport, htype⟩]
  constructor
  case adds => rfl
  case insertedNodes => rfl
  case others =>
    intro t ht htn
    have hc : t ≠ ⟨.inserted net.inserted, 0⟩ := fun h => ht (congrArg Terminal.circuit h)
    simp [setName_name, insertedNode_name, htn, hc]
  all_goals simp [setName_name, insertedNode_name, hne]

section Transforms

variable {net net' : Net} {p : Id}

/-- The terminals of the port and those of its transformer that take over. -/
def taken (c p : Id) (t : Terminal) : Terminal :=
  if t = ⟨p, 0⟩ then ⟨c, 1⟩ else if t = ⟨p, 1⟩ then ⟨c, 2⟩ else t

section

variable (h : Transforms net net' p) (hf : Fresh net)
  (hp : ∀ i < 2, (⟨p, i⟩ : Terminal) ∈ net.terminals)
include h hf hp

theorem Transforms.cases {t : Terminal} :
    t ∈ net'.terminals ↔
      (t = ⟨.inserted net.inserted, 0⟩ ∧ net'.name t = inode net.insertedNodes) ∨
      (t = ⟨p, 0⟩ ∧ net'.name t = inode net.insertedNodes) ∨
      (t = ⟨p, 1⟩ ∧ net'.name t = "PacGround") ∨
      ∃ u ∈ net.terminals, t = taken (.inserted net.inserted) p u ∧ net'.name t = net.name u := by
  rw [h.adds.mem_terminals hf]
  constructor
  · rintro (⟨hc, hi⟩ | ht)
    · obtain ⟨c, i⟩ := t
      obtain rfl := hc
      match i, hi with
      | 0, _ => exact .inl ⟨rfl, h.first⟩
      | 1, _ => exact .inr (.inr (.inr ⟨_, hp 0 (by decide), by simp [taken], h.second⟩))
      | 2, _ => exact .inr (.inr (.inr ⟨_, hp 1 (by decide), by simp [taken], h.third⟩))
    · by_cases h0 : t = ⟨p, 0⟩
      · exact .inr (.inl ⟨h0, h0 ▸ h.port⟩)
      by_cases h1 : t = ⟨p, 1⟩
      · exact .inr (.inr (.inl ⟨h1, h1 ▸ h.ground⟩))
      · exact .inr (.inr (.inr ⟨t, ht, by simp [taken, h0, h1],
          h.others t (hf.circuit_ne ht) h0 h1⟩))
  · rintro (⟨rfl, -⟩ | ⟨rfl, -⟩ | ⟨rfl, -⟩ | ⟨u, hu, rfl, -⟩)
    · exact .inl ⟨rfl, show 0 < 3 by decide⟩
    · exact .inr (hp 0 (by decide))
    · exact .inr (hp 1 (by decide))
    · rw [taken]
      split_ifs
      · exact .inl ⟨rfl, show 1 < 3 by decide⟩
      · exact .inl ⟨rfl, show 2 < 3 by decide⟩
      · exact .inr hu

theorem Transforms.step : Step net net' (.create .itrafo 3 0) where
  adds := h.adds
  le := h.insertedNodes ▸ Nat.le_succ _
  names := by
    intro t ht
    have hlt : net.insertedNodes < net'.insertedNodes := h.insertedNodes ▸ Nat.lt_succ_self _
    rcases (h.cases hf hp).mp ht with ⟨-, hname⟩ | ⟨-, hname⟩ | ⟨-, hname⟩ | ⟨u, hu, -, hname⟩
    · exact .inr (.inl ⟨_, hlt, hname⟩)
    · exact .inr (.inl ⟨_, hlt, hname⟩)
    · exact .inr (.inr hname)
    · exact .inl ⟨u, hu, hname⟩

end

theorem taken_injOn (hf : Fresh net) {u v : Terminal} (hu : u ∈ net.terminals)
    (hv : v ∈ net.terminals)
    (h : taken (.inserted net.inserted) p u = taken (.inserted net.inserted) p v) : u = v := by
  have hc := hf.circuit_ne hu
  have hd := hf.circuit_ne hv
  obtain ⟨c, i⟩ := u
  obtain ⟨d, j⟩ := v
  simp only [taken, Terminal.mk.injEq] at h
  split_ifs at h <;> simp_all

variable (h : Transforms net net' p) (hf : Fresh net) (hp : ∀ i < 2, ⟨p, i⟩ ∈ net.terminals)
include h hf hp

theorem Transforms.keeps {y : String} {L : List Terminal} (hy : y ≠ inode net.insertedNodes)
    (hpac : y ≠ "PacGround") (hL : Carried net y L) :
    Carried net' y (L.map (taken (.inserted net.inserted) p)) := by
  constructor
  · refine hL.nodup.map_on ?_
    intro u hu v hv
    exact taken_injOn hf ((hL.mem u).mp hu).1 ((hL.mem v).mp hv).1
  · intro t
    rw [mem_map, h.cases hf hp]
    constructor
    · rintro ⟨u, hu, rfl⟩
      obtain ⟨hu, hname⟩ := (hL.mem u).mp hu
      have hsame : net'.name (taken (.inserted net.inserted) p u) = net.name u := by
        rw [taken]
        split_ifs with h0 h1
        · rw [h0, h.second]
        · rw [h1, h.third]
        · exact h.others u (hf.circuit_ne hu) h0 h1
      exact ⟨.inr (.inr (.inr ⟨u, hu, rfl, hsame⟩)), hsame.trans hname⟩
    · rintro ⟨⟨-, hn⟩ | ⟨-, hn⟩ | ⟨-, hn⟩ | ⟨u, hu, rfl, hn⟩, hname⟩
      · exact absurd (hname.symm.trans hn) hy
      · exact absurd (hname.symm.trans hn) hy
      · exact absurd (hname.symm.trans hn) hpac
      · exact ⟨u, (hL.mem u).mpr ⟨hu, hn.symm.trans hname⟩, rfl⟩

theorem Transforms.paired :
    Carried net' (inode net.insertedNodes) [⟨.inserted net.inserted, 0⟩, ⟨p, 0⟩] := by
  have hne := hf.circuit_ne (hp 0 (by decide))
  constructor
  · simpa using hne.symm
  · intro t
    rw [mem_cons, mem_singleton, h.cases hf hp]
    constructor
    · rintro (rfl | rfl)
      · exact ⟨.inl ⟨rfl, h.first⟩, h.first⟩
      · exact ⟨.inr (.inl ⟨rfl, h.port⟩), h.port⟩
    · rintro ⟨⟨rfl, -⟩ | ⟨rfl, -⟩ | ⟨-, hn⟩ | ⟨u, hu, -, hn⟩, hname⟩
      · exact .inl rfl
      · exact .inr rfl
      · exact absurd (hname.symm.trans hn) (inode_ne (by decide))
      · exact absurd (hn.symm.trans hname) (hf.names u hu _ (Nat.le_refl _))

end Transforms

section Grounds

variable {net net' : Net} {n : Terminal}

variable (h : Grounds net net' n) (hf : Fresh net) (hn : n ∈ net.terminals)
include h hf hn

theorem Grounds.cases {t : Terminal} :
    t ∈ net'.terminals ↔
      (t = ⟨.inserted net.inserted, 0⟩ ∧ net'.name t = inode net.insertedNodes) ∨
      (t = n ∧ net'.name t = inode net.insertedNodes) ∨
      (t ∈ net.terminals ∧ t ≠ n ∧ net'.name t = net.name t) := by
  rw [h.adds.mem_terminals hf]
  constructor
  · rintro (⟨hc, hi⟩ | ht)
    · obtain ⟨c, i⟩ := t
      obtain rfl := hc
      obtain rfl := Nat.lt_one_iff.mp hi
      exact .inl ⟨rfl, h.first⟩
    · by_cases htn : t = n
      · exact .inr (.inl ⟨htn, htn ▸ h.node⟩)
      · exact .inr (.inr ⟨ht, htn, h.others t (hf.circuit_ne ht) htn⟩)
  · rintro (⟨rfl, -⟩ | ⟨rfl, -⟩ | ⟨ht, -, -⟩)
    · exact .inl ⟨rfl, Nat.zero_lt_one⟩
    · exact .inr hn
    · exact .inr ht

theorem Grounds.step :
    Step net net' (.create .ground 1 0) where
  adds := h.adds
  le := h.insertedNodes ▸ Nat.le_succ _
  names := by
    intro t ht
    have hlt : net.insertedNodes < net'.insertedNodes := h.insertedNodes ▸ Nat.lt_succ_self _
    rcases (h.cases hf hn).mp ht with ⟨-, hname⟩ | ⟨-, hname⟩ | ⟨ht, -, hname⟩
    · exact .inr (.inl ⟨_, hlt, hname⟩)
    · exact .inr (.inl ⟨_, hlt, hname⟩)
    · exact .inl ⟨t, ht, hname⟩

theorem Grounds.keeps {y : String} {L : List Terminal} (hy : y ≠ inode net.insertedNodes)
    (hyn : y ≠ net.name n) (hL : Carried net y L) : Carried net' y L := by
  refine ⟨hL.nodup, fun t => ?_⟩
  rw [hL.mem, h.cases hf hn]
  constructor
  · rintro ⟨ht, rfl⟩
    have htn : t ≠ n := by
      rintro rfl
      exact hyn rfl
    have hsame := h.others t (hf.circuit_ne ht) htn
    exact ⟨.inr (.inr ⟨ht, htn, hsame⟩), hsame⟩
  · rintro ⟨⟨-, hnew⟩ | ⟨-, hnew⟩ | ⟨ht, -, hsame⟩, hname⟩
    · exact absurd (hname.symm.trans hnew) hy
    · exact absurd (hname.symm.trans hnew) hy
    · exact ⟨ht, hsame.symm.trans hname⟩

theorem Grounds.paired :
    Carried net' (inode net.insertedNodes) [⟨.inserted net.inserted, 0⟩, n] := by
  have hne : ⟨.inserted net.inserted, 0⟩ ≠ n := fun heq =>
    hf.circuit_ne hn (congrArg Terminal.circuit heq).symm
  constructor
  · simpa using hne
  · intro t
    rw [mem_cons, mem_singleton, h.cases hf hn]
    constructor
    · rintro (rfl | rfl)
      · exact ⟨.inl ⟨rfl, h.first⟩, h.first⟩
      · exact ⟨.inr (.inl ⟨rfl, h.node⟩), h.node⟩
    · rintro ⟨⟨rfl, -⟩ | ⟨rfl, -⟩ | ⟨ht, -, hsame⟩, hname⟩
      · exact .inl rfl
      · exact .inr rfl
      · exact absurd (hsame.symm.trans hname) (hf.names t ht _ (Nat.le_refl _))

end Grounds

/-! ## Sequences of insertions -/

/-- The circuits that connect, with the number of nodes each is given. -/
inductive Connector : Circuit → ℕ → Prop where
  | tee : Connector (.create .tee 3 0) 2
  | cross : Connector (.create .cross 4 3) 3
  | opened : Connector (.create .opened 1 0) 0

variable {k : ℕ}

theorem Connector.size (h : Connector o k) : o.size = k + 1 := by
  cases h <;> rfl

theorem Connector.type_ne (h : Connector o k) : o.type ≠ .ground := by
  cases h <;> decide

theorem Connector.plain (h : Connector o k) : o.port = 0 ∧ o.type ≠ .pac ∧ o.original := by
  cases h <;> decide

/-- One circuit inserted by `insertConnections`. -/
inductive Inserts (net net' : Net) : Prop where
  | connector {o : Circuit} {nodes : List Terminal} {x : String} (kind : Connector o nodes.length)
      (h : Connects net net' o nodes x)
      (nodes_mem : ∀ n ∈ nodes, n ∈ net.terminals ∧ net.name n = x)
      (mem : ∃ n ∈ net.terminals, net.name n = x)
  | port {p : Id} (h : Transforms net net' p)
      (mem : ∀ i < 2, ⟨p, i⟩ ∈ net.terminals)
  | ground {n : Terminal} (h : Grounds net net' n) (mem : n ∈ net.terminals)
      (gnd : net.name n = "gnd")

structure Extends (net net' : Net) : Prop where
  fresh : Fresh net'
  old : ∀ c ∈ net.root, c ∈ net'.root ∧ net'.circuit c = net.circuit c
  new : ∀ c ∈ net'.root, c ∈ net.root ∨ (net'.circuit c).port = 0 ∧
    (net'.circuit c).original ∧ ∃ i, c = .inserted i
  drop : net'.drop = net.drop
  counts : Counts net → Counts net'

section Extends

variable {net net' net'' : Net}

theorem Inserts.step (h : Inserts net net') (hf : Fresh net) :
    ∃ o, Step net net' o ∧ o.port = 0 ∧ o.type ≠ .pac ∧ o.original := by
  cases h with
  | connector kind h hnodes hmem =>
    exact ⟨_, h.step hf (fun n hn => (hnodes n hn).1) hmem, kind.plain⟩
  | port h hmem => exact ⟨_, h.step hf hmem, rfl, by decide, rfl⟩
  | ground h hmem hgnd => exact ⟨_, h.step hf hmem, rfl, by decide, rfl⟩

theorem Inserts.extends (h : Inserts net net') (hf : Fresh net) : Extends net net' := by
  obtain ⟨o, hstep, hport, htype, horiginal⟩ := h.step hf
  constructor
  case fresh => exact hstep.fresh hf
  case old =>
    intro c hc
    rw [hstep.adds.root]
    exact ⟨mem_cons_of_mem _ hc, hstep.adds.circuit_of_mem hf hc⟩
  case new =>
    rw [hstep.adds.root]
    intro c hc
    rcases mem_cons.mp hc with rfl | hc
    · rw [hstep.adds.circuit_self, register_port _ htype, register_original]
      exact .inr ⟨hport, horiginal, _, rfl⟩
    · exact .inl hc
  case drop => exact hstep.adds.drop
  case counts => exact hstep.adds.counts hf hport htype

theorem Extends.refl (hf : Fresh net) : Extends net net :=
  ⟨hf, fun _ hc => ⟨hc, rfl⟩, fun _ hc => .inl hc, rfl, id⟩

theorem Extends.trans (h : Extends net net') (h' : Extends net' net'') : Extends net net'' where
  fresh := h'.fresh
  old := by
    intro c hc
    obtain ⟨hc', hsame⟩ := h.old c hc
    exact ⟨(h'.old c hc').1, (h'.old c hc').2.trans hsame⟩
  new := by
    intro c hc
    rcases h'.new c hc with hc | hnew
    · rw [(h'.old c hc).2]
      exact h.new c hc
    · exact .inr hnew
  drop := h'.drop.trans h.drop
  counts := h'.counts ∘ h.counts

theorem extends_of_run (h : Relation.ReflTransGen Inserts net net') (hf : Fresh net) :
    Extends net net' := by
  induction h with
  | refl => exact .refl hf
  | tail _ hstep ih => exact ih.trans (hstep.extends ih.fresh)

theorem Extends.mem_terminals (h : Extends net net') {t : Terminal} (ht : t ∈ net.terminals) :
    t ∈ net'.terminals := by
  obtain ⟨hc, hi⟩ := net.mem_terminals.mp ht
  obtain ⟨hc', hsame⟩ := h.old _ hc
  exact net'.mem_terminals.mpr ⟨hc', hsame ▸ hi⟩

end Extends

end Qucs.Network
