/-
# The node numbers of the harmonic balance

`hbsolver.cpp`. The circuits are split into a linear, an
excitation and a nonlinear part. The nodes of the three are collected by name
and put one after the other,

    nanodes   =  balanced nodes  ++  excitation nodes  ++  other linear nodes

and every node of a circuit gets the position of its name, counted from one, as
its number; the ground keeps the zero it has from its constructor. `prepare` is
`prepareLinear` and `prepareNonLinear`.

The excitation nodes are appended as they are. One that is also balanced is
then in the list twice, and as the names are gone through in order the second
position counts: the node of a nonlinear circuit gets a number that the matrices
of the balanced nodes do not have. `consistent_iff` says that this is all that
can go wrong.
-/
import Mathlib

namespace Qucs.HarmonicBalance

open List

/-! ## Circuits and their parts -/

inductive CircuitType where
  | ground | pac | vac | vdc | other
  deriving DecidableEq, Repr

structure Circuit where
  type : CircuitType
  nonLinear : Bool
  nodes : List String

/-- The circuits, as objects with an identity, and the list of them. -/
structure Net where
  circuit : ℕ → Circuit
  root : List ℕ

structure Terminal where
  circuit : ℕ
  index : ℕ
  deriving DecidableEq, Repr

def isExcitation (c : Circuit) : Bool := c.type = .pac ∨ c.type = .vac ∨ c.type = .vdc

structure Parts where
  lincircuits : List ℕ
  excitations : List ℕ
  nolcircuits : List ℕ

/-- The loop body of `splitCircuits`. -/
def splitCircuit (net : Net) (parts : Parts) (c : ℕ) : Parts :=
  if (net.circuit c).nonLinear then { parts with nolcircuits := c :: parts.nolcircuits }
  else if isExcitation (net.circuit c) then { parts with excitations := c :: parts.excitations }
  else if (net.circuit c).type ≠ .ground then
    { parts with lincircuits := c :: parts.lincircuits }
  else parts

/-- The circuits by their kind. -/
def splitCircuits (net : Net) : Parts := net.root.foldl (splitCircuit net) ⟨[], [], []⟩

namespace Net

variable (net : Net)

def name (t : Terminal) : String := ((net.circuit t.circuit).nodes[t.index]?).getD ""

def terminals (circuits : List ℕ) : List Terminal :=
  circuits.flatMap fun c => (List.range (net.circuit c).nodes.length).map (⟨c, ·⟩)

end Net

/-! ## The lists of names -/

variable (net : Net)

/-- The names of the nodes of some circuits. -/
def circuitNodes (circuits : List ℕ) : List String :=
  (net.terminals circuits).foldl (fun nodes t =>
    if net.name t ≠ "gnd" ∧ net.name t ∉ nodes then net.name t :: nodes else nodes) []

structure NodeLists where
  nlnodes : List String
  lnnodes : List String
  exnodes : List String
  nanodes : List String
  banodes : List String

/-- All lists of nodes, `hbsolver::getNodeLists`. -/
def getNodeLists : NodeLists :=
  let parts := splitCircuits net
  let nlnodes := circuitNodes net parts.nolcircuits
  let lnnodes := circuitNodes net parts.lincircuits
  let exnodes := circuitNodes net parts.excitations
  { nlnodes := nlnodes
    lnnodes := lnnodes
    exnodes := exnodes
    nanodes := lnnodes.foldl (fun nodes x => if x ∈ nodes then nodes else nodes ++ [x])
      (nlnodes ++ exnodes)
    banodes := nlnodes }

/-! ## Numbers -/

/-- The inner loops of `assignNodes`. -/
def assignNode (circuits : List ℕ) (number : Terminal → ℕ) (nn : String) (n : ℕ) :
    Terminal → ℕ :=
  (net.terminals circuits).foldl (fun number t =>
    if net.name t = nn then Function.update number t n else number) number

/-- The nodes are numbered in the order of their list. -/
def assignNodes (circuits : List ℕ) (nodes : List String) (offset : ℕ)
    (number : Terminal → ℕ) : Terminal → ℕ :=
  nodes.zipIdx.foldl (fun number p => assignNode net circuits number p.1 (offset + p.2 + 1)) number

/-- The nonlinear part is prepared only if there are balanced nodes. -/
def prepare (number : Terminal → ℕ) : Terminal → ℕ :=
  let parts := splitCircuits net
  let lists := getNodeLists net
  let number := assignNodes net parts.lincircuits lists.nanodes 0 number
  let number := assignNodes net parts.excitations lists.nanodes 0 number
  if 0 < lists.banodes.length then assignNodes net parts.nolcircuits lists.nanodes 0 number
  else number

/-- The numbers of all nodes before the preparation. A node has a zero from its
constructor, and one called "gnd" never gets another number. -/
structure Numbering (net : Net) where
  number : Terminal → ℕ
  ground : ∀ t, net.name t = "gnd" → number t = 0

/-- The nodes of all circuits of the three parts. -/
def partTerminals : List Terminal :=
  let parts := splitCircuits net
  net.terminals parts.lincircuits ++ net.terminals parts.excitations ++
    net.terminals parts.nolcircuits

/-- The numbers are a partition of the nodes by their names, use every number up
to the number of names, and stay within the balanced nodes on nonlinear
circuits. -/
structure Consistent (net : Net) (number : Terminal → ℕ) : Prop where
  names : ∀ s ∈ partTerminals net, ∀ t ∈ partTerminals net,
    number s = number t ↔ net.name s = net.name t
  ground : ∀ t ∈ partTerminals net, number t = 0 ↔ net.name t = "gnd"
  used : ∀ n, 1 ≤ n → n ≤ (getNodeLists net).nanodes.length → ∃ t ∈ partTerminals net, number t = n
  balanced : ∀ t ∈ net.terminals (splitCircuits net).nolcircuits, net.name t ≠ "gnd" →
    number t ≤ (getNodeLists net).banodes.length

/-! ## What the lists hold -/

section Lists

variable (net : Net)

theorem circuitNodes_spec (circuits : List ℕ) : (circuitNodes net circuits).Nodup ∧
    ∀ x, x ∈ circuitNodes net circuits ↔
      x ≠ "gnd" ∧ ∃ t ∈ net.terminals circuits, net.name t = x := by
  have h : ∀ (ts : List Terminal) (nodes : List String), nodes.Nodup →
      (ts.foldl (fun nodes t => if net.name t ≠ "gnd" ∧ net.name t ∉ nodes then
        net.name t :: nodes else nodes) nodes).Nodup ∧
      ∀ x, x ∈ ts.foldl (fun nodes t => if net.name t ≠ "gnd" ∧ net.name t ∉ nodes then
        net.name t :: nodes else nodes) nodes ↔
        x ∈ nodes ∨ x ≠ "gnd" ∧ ∃ t ∈ ts, net.name t = x := by
    intro ts
    induction ts with
    | nil => exact fun nodes hnodup => ⟨hnodup, fun x => by simp⟩
    | cons t ts ih =>
      intro nodes hnodup
      rw [foldl_cons]
      split
      case isTrue hnew =>
        obtain ⟨hnodup', hmem⟩ := ih _ (nodup_cons.mpr ⟨hnew.2, hnodup⟩)
        refine ⟨hnodup', fun x => ?_⟩
        rw [hmem, mem_cons]
        by_cases hx : x = net.name t
        · simp [hx, hnew.1]
        · simp [hx, Ne.symm hx]
      case isFalse hold =>
        obtain ⟨hnodup', hmem⟩ := ih _ hnodup
        refine ⟨hnodup', fun x => ?_⟩
        rw [hmem]
        by_cases hx : net.name t = x
        · subst hx
          simp only [not_and, not_not] at hold
          constructor
          · rintro (h | ⟨hne, h⟩)
            · exact .inl h
            · exact .inl (hold hne)
          · rintro (h | ⟨hne, -⟩)
            · exact .inl h
            · exact .inl (hold hne)
        · simp [hx]
  obtain ⟨hnodup, hmem⟩ := h (net.terminals circuits) [] nodup_nil
  exact ⟨hnodup, fun x => by rw [circuitNodes, hmem]; simp⟩

theorem append_missing : ∀ (xs nodes : List String),
    nodes <+: xs.foldl (fun nodes x => if x ∈ nodes then nodes else nodes ++ [x]) nodes ∧
    (∀ x, x ∈ xs.foldl (fun nodes x => if x ∈ nodes then nodes else nodes ++ [x]) nodes ↔
      x ∈ nodes ∨ x ∈ xs) ∧
    (nodes.Nodup → (xs.foldl (fun nodes x => if x ∈ nodes then nodes else nodes ++ [x])
      nodes).Nodup)
  | [], nodes => ⟨prefix_rfl, fun x => by simp, id⟩
  | x :: xs, nodes => by
    rw [foldl_cons]
    split
    case isTrue hx =>
      obtain ⟨hpre, hmem, hnodup⟩ := append_missing xs nodes
      refine ⟨hpre, fun y => ?_, hnodup⟩
      rw [hmem, mem_cons]
      refine ⟨fun h => h.imp_right .inr, ?_⟩
      rintro (h | rfl | h)
      · exact .inl h
      · exact .inl hx
      · exact .inr h
    case isFalse hx =>
      obtain ⟨hpre, hmem, hnodup⟩ := append_missing xs (nodes ++ [x])
      refine ⟨(prefix_append nodes [x]).trans hpre, fun y => ?_, fun h => hnodup ?_⟩
      · rw [hmem, mem_append, mem_singleton, mem_cons, or_assoc]
      · refine h.append (nodup_singleton x) ?_
        rw [disjoint_singleton]
        exact hx

theorem mem_nanodes {x : String} : x ∈ (getNodeLists net).nanodes ↔
    x ≠ "gnd" ∧ ∃ t ∈ partTerminals net, net.name t = x := by
  rw [getNodeLists]
  rw [(append_missing _ _).2.1, mem_append, (circuitNodes_spec net _).2,
    (circuitNodes_spec net _).2, (circuitNodes_spec net _).2, ← and_or_left, ← and_or_left]
  refine and_congr_right fun _ => ?_
  simp only [partTerminals, mem_append]
  constructor
  · rintro ((⟨t, ht, hx⟩ | ⟨t, ht, hx⟩) | ⟨t, ht, hx⟩)
    · exact ⟨t, .inr ht, hx⟩
    · exact ⟨t, .inl (.inr ht), hx⟩
    · exact ⟨t, .inl (.inl ht), hx⟩
  · rintro ⟨t, (ht | ht) | ht, hx⟩
    · exact .inr ⟨t, ht, hx⟩
    · exact .inl (.inr ⟨t, ht, hx⟩)
    · exact .inl (.inl ⟨t, ht, hx⟩)

end Lists

/-! ## What the loops assign -/

section Assign

variable {net : Net} {circuits : List ℕ} {number : Terminal → ℕ}

theorem assignNode_apply (nn : String) (n : ℕ) (t : Terminal) :
    assignNode net circuits number nn n t =
      if t ∈ net.terminals circuits ∧ net.name t = nn then n else number t := by
  have h : ∀ (ts : List Terminal) (number : Terminal → ℕ),
      ts.foldl (fun number t => if net.name t = nn then Function.update number t n else number)
        number t = if t ∈ ts ∧ net.name t = nn then n else number t := by
    intro ts
    induction ts with
    | nil => simp
    | cons u ts ih =>
      intro number
      rw [foldl_cons, ih]
      by_cases hut : t = u
      · subst hut
        by_cases hname : net.name t = nn <;> simp [hname]
      · split_ifs <;> simp_all
  exact h _ number

/-- The last position of a name, counted from one. -/
def LastPosition (nodes : List String) (x : String) (n : ℕ) : Prop :=
  ∃ k, nodes[k]? = some x ∧ (∀ j, nodes[j]? = some x → j ≤ k) ∧ n = k + 1

/-- **The numbers of some circuits**: where the name is in the list the last
position counts; everything else stays. -/
theorem assignNodes_apply (net : Net) (circuits : List ℕ) (number : Terminal → ℕ)
    (nodes : List String) (t : Terminal) :
    (t ∈ net.terminals circuits → net.name t ∈ nodes →
      LastPosition nodes (net.name t) (assignNodes net circuits nodes 0 number t)) ∧
    (t ∉ net.terminals circuits ∨ net.name t ∉ nodes →
      assignNodes net circuits nodes 0 number t = number t) := by
  induction nodes using reverseRecOn with
  | nil => simp [assignNodes]
  | append_singleton nodes y ih =>
    obtain ⟨ihmem, ihnot⟩ := ih
    have hstep : assignNodes net circuits (nodes ++ [y]) 0 number t =
        if t ∈ net.terminals circuits ∧ net.name t = y then nodes.length + 1
        else assignNodes net circuits nodes 0 number t := by
      rw [assignNodes, zipIdx_append, foldl_append, ← assignNodes]
      simp only [zipIdx_singleton, foldl_cons, foldl_nil, Nat.zero_add]
      rw [assignNode_apply]
    constructor
    · intro ht hmem
      rw [hstep]
      split
      case isTrue hy =>
        refine ⟨nodes.length, by simp [hy.2], fun j hj => ?_, rfl⟩
        have := (List.getElem?_eq_some_iff.mp hj).1
        rw [length_append, length_singleton] at this
        omega
      case isFalse hy =>
        have hne : net.name t ≠ y := fun heq => hy ⟨ht, heq⟩
        obtain ⟨k, hk, hlast, hn⟩ := ihmem ht (by simpa [hne] using hmem)
        have hlt := (List.getElem?_eq_some_iff.mp hk).1
        refine ⟨k, by rw [getElem?_append_left hlt, hk], fun j hj => ?_, hn⟩
        rcases Nat.lt_or_ge j nodes.length with hjl | hjl
        · rw [getElem?_append_left hjl] at hj
          exact hlast j hj
        · rw [getElem?_append_right hjl] at hj
          exact absurd (mem_singleton.mp (mem_of_getElem? hj)) hne
    · intro hnot
      rw [hstep, if_neg]
      · exact ihnot (hnot.imp_right fun h hmem => h (mem_append_left _ hmem))
      · rintro ⟨ht, rfl⟩
        exact hnot.elim (fun h => h ht) fun h => h (by simp)

theorem assignNodes_keeps {nodes : List String} {t : Terminal}
    (h : LastPosition nodes (net.name t) (number t)) :
    LastPosition nodes (net.name t) (assignNodes net circuits nodes 0 number t) := by
  obtain ⟨hset, hsame⟩ := assignNodes_apply net circuits number nodes t
  by_cases ht : t ∈ net.terminals circuits
  · obtain ⟨k, hk, -⟩ := h
    exact hset ht (mem_of_getElem? hk)
  · rwa [hsame (.inl ht)]

/-- **All numbers**: every node of a part has the last position of its name, the
ground has zero. -/
theorem prepare_apply (net : Net) (start : Numbering net) {t : Terminal}
    (ht : t ∈ partTerminals net) :
    (net.name t = "gnd" → prepare net start.number t = 0) ∧
    (net.name t ≠ "gnd" →
      LastPosition (getNodeLists net).nanodes (net.name t) (prepare net start.number t)) := by
  constructor
  · intro hgnd
    have hnot := fun hmem => ((mem_nanodes net).mp hmem).1 hgnd
    have hsame := fun circuits number =>
      (assignNodes_apply net circuits number (getNodeLists net).nanodes t).2 (.inr hnot)
    rw [prepare]
    split
    · rw [hsame, hsame, hsame, start.ground t hgnd]
    · rw [hsame, hsame, start.ground t hgnd]
  · intro hgnd
    have hmem := (mem_nanodes net).mpr ⟨hgnd, t, ht, rfl⟩
    have hset := fun circuits number (ht : t ∈ net.terminals circuits) =>
      (assignNodes_apply net circuits number (getNodeLists net).nanodes t).1 ht hmem
    simp only [partTerminals, mem_append] at ht
    rw [prepare]
    rcases ht with (ht | ht) | ht
    · have h : LastPosition (getNodeLists net).nanodes (net.name t)
          (assignNodes net (splitCircuits net).excitations (getNodeLists net).nanodes 0
            (assignNodes net (splitCircuits net).lincircuits (getNodeLists net).nanodes 0
              start.number) t) := assignNodes_keeps (hset _ start.number ht)
      split
      · exact assignNodes_keeps h
      · exact h
    · have h := hset _ (assignNodes net (splitCircuits net).lincircuits (getNodeLists net).nanodes 0
        start.number) ht
      split
      · exact assignNodes_keeps h
      · exact h
    · have hbalanced : net.name t ∈ (getNodeLists net).banodes :=
        ((circuitNodes_spec net _).2 _).mpr ⟨hgnd, t, ht, rfl⟩
      rw [if_pos (length_pos_of_mem hbalanced)]
      exact hset _ _ ht

end Assign

/-! ## When the numbers are consistent -/

section Consistent

variable {net : Net}

theorem nanodes_starts (net : Net) :
    (getNodeLists net).nlnodes ++ (getNodeLists net).exnodes <+: (getNodeLists net).nanodes :=
  (append_missing _ _).1

theorem LastPosition.unique {nodes : List String} (hnodup : nodes.Nodup) {x : String} {n k : ℕ}
    (h : LastPosition nodes x n) (hk : nodes[k]? = some x) : n = k + 1 := by
  obtain ⟨j, hj, -, rfl⟩ := h
  obtain ⟨hjl, hjx⟩ := List.getElem?_eq_some_iff.mp hj
  obtain ⟨hkl, hkx⟩ := List.getElem?_eq_some_iff.mp hk
  rw [(hnodup.getElem_inj_iff).mp (hjx.trans hkx.symm)]

theorem consistent_of_nodup (start : Numbering net) (hnodup : (getNodeLists net).nanodes.Nodup) :
    Consistent net (prepare net start.number) := by
  have hground : ∀ t ∈ partTerminals net,
      prepare net start.number t = 0 ↔ net.name t = "gnd" := by
    intro t ht
    obtain ⟨hgnd, hlast⟩ := prepare_apply net start ht
    refine ⟨fun hzero => not_not.mp fun hne => ?_, hgnd⟩
    obtain ⟨k, -, -, hn⟩ := hlast hne
    omega
  constructor
  case ground => exact hground
  case names =>
    intro s hs t ht
    by_cases hsg : net.name s = "gnd"
    · rw [(hground s hs).mpr hsg, eq_comm, hground t ht, hsg, eq_comm]
    obtain ⟨k, hk, -, hn⟩ := (prepare_apply net start hs).2 hsg
    by_cases htg : net.name t = "gnd"
    · rw [(hground t ht).mpr htg, htg, hground s hs]
    have hlast := (prepare_apply net start ht).2 htg
    constructor
    · intro heq
      obtain ⟨j, hj, -, hm⟩ := hlast
      obtain rfl : k = j := by omega
      exact Option.some.inj (hk.symm.trans hj)
    · intro heq
      rw [hn, hlast.unique hnodup (heq ▸ hk)]
  case used =>
    intro n hpos hle
    have hlt : n - 1 < (getNodeLists net).nanodes.length := by omega
    have hget := getElem?_eq_getElem hlt
    obtain ⟨hgnd, t, ht, hname⟩ := (mem_nanodes net).mp (getElem_mem hlt)
    refine ⟨t, ht, ?_⟩
    have hlast := (prepare_apply net start ht).2 (hname ▸ hgnd)
    rw [hlast.unique hnodup (hname ▸ hget)]
    omega
  case balanced =>
    intro t ht hgnd
    have hpart : t ∈ partTerminals net := mem_append_right _ ht
    have hmem : net.name t ∈ (getNodeLists net).nlnodes :=
      ((circuitNodes_spec net _).2 _).mpr ⟨hgnd, t, ht, rfl⟩
    obtain ⟨k, hk⟩ := mem_iff_getElem?.mp hmem
    have hlt := (List.getElem?_eq_some_iff.mp hk).1
    obtain ⟨rest, hrest⟩ := (prefix_append _ _).trans (nanodes_starts net)
    have hk' : (getNodeLists net).nanodes[k]? = some (net.name t) := by
      rw [← hrest, getElem?_append_left hlt, hk]
    rw [((prepare_apply net start hpart).2 hgnd).unique hnodup hk']
    exact hlt

/-- **The node numbers** are a consistent partition iff no node of an
excitation is one of a nonlinear circuit. -/
theorem consistent_iff (net : Net) (start : Numbering net) :
    Consistent net (prepare net start.number) ↔
      ∀ x ∈ (getNodeLists net).exnodes, x ∉ (getNodeLists net).nlnodes := by
  constructor
  · intro h x hex hnl
    obtain ⟨hgnd, t, ht, rfl⟩ := ((circuitNodes_spec net _).2 _).mp hnl
    have hpart : t ∈ partTerminals net := mem_append_right _ ht
    obtain ⟨k, hk, hlast, hn⟩ := (prepare_apply net start hpart).2 hgnd
    obtain ⟨j, hj⟩ := mem_iff_getElem?.mp hex
    have hlt := (List.getElem?_eq_some_iff.mp hj).1
    obtain ⟨rest, hrest⟩ := nanodes_starts net
    have hle := hlast ((getNodeLists net).nlnodes.length + j) (by
      rw [← hrest, getElem?_append_left (by rw [length_append]; omega),
        getElem?_append_right (Nat.le_add_right _ _), Nat.add_sub_cancel_left, hj])
    have hbalanced := h.balanced t ht hgnd
    have hba : (getNodeLists net).banodes.length = (getNodeLists net).nlnodes.length := rfl
    omega
  · intro h
    refine consistent_of_nodup start ((append_missing _ _).2.2 ?_)
    refine (circuitNodes_spec net _).1.append (circuitNodes_spec net _).1 ?_
    exact fun x hnl hex => h x hex hnl

/-- A diode at an AC voltage source: the node is a balanced one and an excitation
node, and its number is beyond the only balanced node. -/
def diode : Net where
  circuit
    | 0 => ⟨.ground, false, ["gnd"]⟩
    | 1 => ⟨.vac, false, ["a", "gnd"]⟩
    | _ => ⟨.other, true, ["a", "gnd"]⟩
  root := [2, 1, 0]

theorem diode_not_consistent : ¬Consistent diode (prepare diode fun _ => 0) := by
  intro h
  have := h.balanced ⟨2, 0⟩ (by decide) (by decide)
  exact absurd this (by decide)

end Consistent

end Qucs.HarmonicBalance
