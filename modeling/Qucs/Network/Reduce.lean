/-
# Joining circuits until only ports are left

The frequency loop of `spsolver::solve`. At each point the two nodes of the
first entry of the node list are joined, their circuits replaced by the result,
until as many nodes as ports remain; then the circuits put aside come back and
the results of the joins are destroyed.

* spsolver::connectedJoin, its nodes: `Net.connectedNodes`
* spsolver::interconnectJoin: `Net.interconnectedNodes`
* net::reducedCircuit: `Net.joined`
* the loops of spsolver::solve: `Joining`, `reduceAll`, `frequencyPoint`

Of the joins only the nodes of the result are here, its matrix is the subject of
`Qucs.Spar.Join`. The calculation of a circuit at a frequency and the saving of
results read the net and do not change it.
-/
import Qucs.Network.NodeList

namespace Qucs.Network

open Net List Function

/-! ## A join -/

namespace Net

variable (net : Net)

/-- The nodes kept when two circuits are joined. -/
def connectedNodes (n1 n2 : Terminal) : List Terminal :=
  (net.terminalsOf n1.circuit).filter (· ≠ n1) ++ (net.terminalsOf n2.circuit).filter (· ≠ n2)

/-- The nodes kept when two nodes of one circuit are joined. -/
def interconnectedNodes (n1 n2 : Terminal) : List Terminal :=
  (net.terminalsOf n1.circuit).filter fun n => ¬(n = n1 ∨ n = n2)

/-- The new circuit, which takes the names of the nodes kept. -/
def joined (kept : List Terminal) : Net :=
  { net with
    circuit := Function.update net.circuit (.reduced net.reduced) (.create .other kept.length 0)
    name := fun t =>
      if t.circuit = .reduced net.reduced then (kept[t.index]?.map net.name).getD (net.name t)
      else net.name t
    reduced := net.reduced + 1 }

def setOriginal (c : Id) (original : Bool) : Net :=
  { net with
    circuit := Function.update net.circuit c { net.circuit c with original := original } }

end Net

def reduce (net : Net) (list : NodeList) : Option (Net × NodeList) :=
  list.sortedNodes.map fun (n1, n2) =>
    let cand1 := n1.circuit
    let cand2 := n2.circuit
    let result := Id.reduced net.reduced
    if cand1 ≠ cand2 then
      let net := net.joined (net.connectedNodes n1 n2)
      let list := ((list.remove net cand1).remove net cand2).insert net result
      let net := ((net.removeCircuit cand1 true).removeCircuit cand2 true).insertCircuit result
      (net.setOriginal result false, list)
    else
      let net := net.joined (net.interconnectedNodes n1 n2)
      let list := (list.remove net cand1).insert net result
      let net := (net.removeCircuit cand1 true).insertCircuit result
      (net.setOriginal result false, list)

/-! ## A frequency point -/

/-- The variables of the loop; `ports` counts the nodes that are left. -/
structure Joining where
  net : Net
  list : NodeList
  ports : ℤ

def Joining.start (net : Net) (list : NodeList) : Joining :=
  ⟨{ net with reduced := 0 }, list, net.countNodes⟩

def Joining.next (s : Joining) : Option Joining :=
  (reduce s.net s.list).map fun r => ⟨r.1, r.2, s.ports - 2⟩

/-- The loop, with the number of joins it makes. -/
def reduceAll : ℕ → Joining → Option (Joining × ℕ)
  | 0, _ => none
  | fuel + 1, s =>
    if s.ports > s.net.nPorts then
      (s.next.bind (reduceAll fuel)).map fun r => (r.1, r.2 + 1)
    else some (s, 0)

def getDroppedCircuits (net : Net) (list : NodeList) : Net × NodeList :=
  let s := net.drop.foldl (fun (s : Net × NodeList) c =>
    (s.1.insertCircuit c, s.2.insert s.1 c)) (net, list)
  ({ s.1 with drop := [] }, s.2)

def deleteUnusedCircuits (net : Net) (list : NodeList) : Net × NodeList :=
  net.root.foldl (fun (s : Net × NodeList) c =>
    if (s.1.circuit c).original then s else
      (s.1.removeCircuit c true, s.2.remove s.1 c)) (net, list)

def Joining.restore (s : Joining) : Net × NodeList :=
  let r := getDroppedCircuits s.net s.list
  deleteUnusedCircuits r.1 r.2

/-- One frequency: all joins, and back to the circuits before. -/
def frequencyPoint (fuel : ℕ) (s : Net × NodeList) : Option (Net × NodeList) :=
  (reduceAll fuel (.start s.1 s.2)).map fun r => r.1.restore

def frequencyPoints (fuel : ℕ) : ℕ → Net × NodeList → Option (Net × NodeList)
  | 0, s => some s
  | k + 1, s => (frequencyPoints fuel k s).bind (frequencyPoint fuel)

/-- The states the loops pass through, from a prepared net on. -/
inductive Reachable (net : Net) : Joining → Prop where
  | start : Reachable net (.start net ((NodeList.create net).sort net))
  | join {s s' : Joining} : Reachable net s → s.ports > s.net.nPorts → s.next = some s' →
      Reachable net s'
  | point {s : Joining} : Reachable net s → ¬s.ports > s.net.nPorts →
      Reachable net (.start s.restore.1 s.restore.2)

/-! ## The nodes kept -/

section Kept

variable {net : Net} {n1 n2 : Terminal}

/-- The nodes of the result, whichever of the two joins it is. -/
def keptNodes (net : Net) (n1 n2 : Terminal) : List Terminal :=
  if n1.circuit ≠ n2.circuit then net.connectedNodes n1 n2 else net.interconnectedNodes n1 n2

theorem mem_keptNodes {t : Terminal} :
    t ∈ keptNodes net n1 n2 ↔ (t ∈ net.terminalsOf n1.circuit ∨ t ∈ net.terminalsOf n2.circuit) ∧
      t ≠ n1 ∧ t ≠ n2 := by
  rw [keptNodes]
  split
  case isTrue hne =>
    have h1 : t ∈ net.terminalsOf n1.circuit → t ≠ n2 := by
      rintro ht rfl
      exact hne (net.mem_terminalsOf.mp ht).1.symm
    have h2 : t ∈ net.terminalsOf n2.circuit → t ≠ n1 := by
      rintro ht rfl
      exact hne (net.mem_terminalsOf.mp ht).1
    simp only [connectedNodes, mem_append, mem_filter, decide_eq_true_eq]
    tauto
  case isFalse heq =>
    rw [← not_not.mp heq]
    simp [interconnectedNodes]

theorem nodup_keptNodes : (keptNodes net n1 n2).Nodup := by
  rw [keptNodes]
  split
  case isTrue hne =>
    refine ((net.nodup_terminalsOf _).filter _).append ((net.nodup_terminalsOf _).filter _) ?_
    intro t h1 h2
    have hc1 := (net.mem_terminalsOf.mp (mem_filter.mp h1).1).1
    have hc2 := (net.mem_terminalsOf.mp (mem_filter.mp h2).1).1
    exact hne (hc1.symm.trans hc2)
  case isFalse => exact (net.nodup_terminalsOf _).filter _

end Kept

/-! ## The net after a join -/

namespace Net

/-- The circuits that are to survive: those of the list and those put aside. -/
def originals (net : Net) : List Id :=
  net.root.filter (fun c => (net.circuit c).original) ++ net.drop

end Net

section Removing

variable {net : Net} {c : Id}

theorem mem_removeCircuit (hnodup : net.root.Nodup) {dropping : Bool} {d : Id} :
    d ∈ (net.removeCircuit c dropping).root ↔ d ∈ net.root ∧ d ≠ c := by
  rw [and_comm]
  exact hnodup.mem_erase_iff

theorem originals_removeCircuit (hc : c ∈ net.root) :
    (net.removeCircuit c true).originals.Perm net.originals := by
  have hperm := (perm_cons_erase hc).filter fun d => (net.circuit d).original
  by_cases ho : (net.circuit c).original
  · rw [filter_cons_of_pos (by simpa using ho)] at hperm
    have hdrop : (net.removeCircuit c true).drop = c :: net.drop := by simp [removeCircuit, ho]
    rw [originals, originals, hdrop]
    exact perm_middle.trans (hperm.symm.append_right net.drop)
  · rw [filter_cons_of_neg (by simpa using ho)] at hperm
    have hdrop : (net.removeCircuit c true).drop = net.drop := by simp [removeCircuit, ho]
    rw [originals, originals, hdrop]
    exact hperm.symm.append_right net.drop

theorem nPorts_removeCircuit {dropping : Bool} (hport : (net.circuit c).port = 0) :
    (net.removeCircuit c dropping).nPorts = net.nPorts := by
  simp [removeCircuit, hport]

/-- One or two circuits less, none of them a port. -/
structure Removes (net net' : Net) (c1 c2 : Id) : Prop where
  circuit : net'.circuit = net.circuit
  name : net'.name = net.name
  reduced : net'.reduced = net.reduced
  nPorts : net'.nPorts = net.nPorts
  nodup : net'.root.Nodup
  mem : ∀ d, d ∈ net'.root ↔ d ∈ net.root ∧ d ≠ c1 ∧ d ≠ c2
  originals : net'.originals.Perm net.originals
  counts : Counts net → Counts net'

theorem removes_one (hnodup : net.root.Nodup) (hc : c ∈ net.root)
    (hport : (net.circuit c).port = 0) : Removes net (net.removeCircuit c true) c c where
  circuit := rfl
  name := rfl
  reduced := rfl
  nPorts := nPorts_removeCircuit hport
  nodup := hnodup.erase c
  mem := fun d => by rw [mem_removeCircuit hnodup, and_self_iff]
  originals := originals_removeCircuit hc
  counts := fun h => h.removeCircuit hc true

theorem removes_two {c2 : Id} (hnodup : net.root.Nodup) (hc : c ∈ net.root) (hc2 : c2 ∈ net.root)
    (hne : c ≠ c2) (hport : (net.circuit c).port = 0) (hport2 : (net.circuit c2).port = 0) :
    Removes net ((net.removeCircuit c true).removeCircuit c2 true) c c2 := by
  have h1 := removes_one hnodup hc hport
  have hc2' := (h1.mem c2).mpr ⟨hc2, hne.symm, hne.symm⟩
  have h2 := removes_one h1.nodup hc2' (show (net.circuit c2).port = 0 from hport2)
  refine ⟨rfl, rfl, rfl, h2.nPorts.trans h1.nPorts, h2.nodup, fun d => ?_,
    h2.originals.trans h1.originals, h2.counts ∘ h1.counts⟩
  rw [h2.mem, h1.mem, and_self_iff, and_self_iff, and_assoc]

end Removing

/-- The net `net'` is `net` after the join of `n1` and `n2`. -/
structure Joins (net net' : Net) (n1 n2 : Terminal) : Prop where
  circuit : ∀ c ≠ .reduced net.reduced, net'.circuit c = net.circuit c
  result : net'.circuit (.reduced net.reduced) =
    { Circuit.create .other (keptNodes net n1 n2).length 0 with original := false }
  name : ∀ t, t.circuit ≠ .reduced net.reduced → net'.name t = net.name t
  names : ∀ i t, (keptNodes net n1 n2)[i]? = some t →
    net'.name ⟨.reduced net.reduced, i⟩ = net.name t
  reduced : net'.reduced = net.reduced + 1
  nPorts : net'.nPorts = net.nPorts
  nodup : net'.root.Nodup
  mem : ∀ d, d ∈ net'.root ↔
    d = .reduced net.reduced ∨ d ∈ net.root ∧ d ≠ n1.circuit ∧ d ≠ n2.circuit
  originals : net'.originals.Perm net.originals
  counts : Counts net → Counts net'

section Joined

variable {net net' : Net} {n1 n2 : Terminal}

theorem Counts.joined (h : Counts net) (kept : List Terminal)
    (hr : .reduced net.reduced ∉ net.root) : Counts (net.joined kept) := by
  refine h.congr (fun d hd => ?_) rfl rfl rfl rfl
  refine update_of_ne ?_ _ _
  rintro rfl
  exact hr hd

theorem setOriginal_circuit (c d : Id) (b : Bool) : (net.setOriginal c b).circuit d =
    { net.circuit d with original := if d = c then b else (net.circuit d).original } := by
  rw [setOriginal]
  by_cases hd : d = c
  · subst hd
    simp
  · simp [hd]

theorem Counts.setOriginal (h : Counts net) (c : Id) (b : Bool) :
    Counts (net.setOriginal c b) where
  circuits := h.circuits
  ports := by
    have hcount : (net.setOriginal c b).countPorts = net.countPorts := by
      simp only [countPorts, setOriginal_circuit]
      rfl
    rw [hcount]
    exact h.ports
  sources := by
    have hcount : (net.setOriginal c b).countSources = net.countSources := by
      simp only [countSources, setOriginal_circuit]
      rfl
    rw [hcount]
    exact h.sources
  port := by
    simp only [setOriginal_circuit]
    exact h.port
  vsource := by
    simp only [setOriginal_circuit]
    exact h.vsource

theorem joins_of_removes (hr : .reduced net.reduced ∉ net.root)
    (h : Removes (net.joined (keptNodes net n1 n2)) net' n1.circuit n2.circuit) :
    Joins net ((net'.insertCircuit (.reduced net.reduced)).setOriginal (.reduced net.reduced) false)
      n1 n2 := by
  have hnot : .reduced net.reduced ∉ net'.root := fun hmem => hr ((h.mem _).mp hmem).1
  have hcircuit : ∀ c ≠ .reduced net.reduced,
      ((net'.insertCircuit (.reduced net.reduced)).setOriginal
      (.reduced net.reduced) false).circuit c = (net.joined (keptNodes net n1 n2)).circuit c := by
    intro c hc
    simp only [setOriginal]
    rw [update_of_ne hc, insertCircuit_circuit, update_of_ne hc, h.circuit]
  have hself : net'.circuit (.reduced net.reduced) =
      .create .other (keptNodes net n1 n2).length 0 := by
    rw [h.circuit]
    exact update_self _ _ _
  have hsame : ∀ c ≠ .reduced net.reduced,
      (net.joined (keptNodes net n1 n2)).circuit c = net.circuit c := fun c hc =>
    update_of_ne hc _ _
  have horiginals : (net.joined (keptNodes net n1 n2)).originals = net.originals := by
    rw [originals, originals]
    congr 1
    refine filter_congr fun d hd => ?_
    rw [hsame d fun heq => hr (heq ▸ hd)]
  constructor
  case circuit => exact fun c hc => (hcircuit c hc).trans (hsame c hc)
  case result =>
    simp only [setOriginal]
    rw [update_self, insertCircuit_circuit, update_self, hself]
    rfl
  case name =>
    intro t ht
    show net'.name t = net.name t
    rw [h.name]
    exact if_neg ht
  case names =>
    intro i t hi
    show net'.name _ = net.name t
    rw [h.name]
    show (if _ then _ else _) = net.name t
    rw [if_pos rfl, hi, Option.map_some, Option.getD_some]
  case reduced => exact h.reduced
  case nPorts =>
    refine Eq.trans ?_ h.nPorts
    show (net'.insertCircuit (.reduced net.reduced)).nPorts = net'.nPorts
    simp [insertCircuit, hself, Circuit.create]
  case nodup => exact nodup_cons.mpr ⟨hnot, h.nodup⟩
  case mem =>
    intro d
    show d ∈ Id.reduced net.reduced :: net'.root ↔ _
    rw [mem_cons, h.mem]
    rfl
  case originals =>
    have hdrop : ((net'.insertCircuit (.reduced net.reduced)).setOriginal
        (.reduced net.reduced) false).originals = net'.originals := by
      show ((Id.reduced net.reduced :: net'.root).filter _) ++ net'.drop = _
      rw [filter_cons_of_neg (by simp [setOriginal]), originals]
      congr 1
      refine filter_congr fun d hd => ?_
      have hne : d ≠ .reduced net.reduced := by
        rintro rfl
        exact hnot hd
      rw [hcircuit d hne, h.circuit]
    rw [hdrop, ← horiginals]
    exact h.originals
  case counts =>
    intro hc
    have hc' := h.counts (hc.joined _ hr)
    refine (hc'.insertCircuit hnot ?_).setOriginal _ _
    rw [hself]
    simp [register, Circuit.create]

end Joined

/-! ## The list after a join -/

section JoinedList

variable {net net' : Net} {n1 n2 : Terminal} {list : NodeList}

theorem joined_circuit_of_mem (kept : List Terminal) (hr : .reduced net.reduced ∉ net.root) {c : Id}
    (hc : c ∈ net.root) : (net.joined kept).circuit c = net.circuit c := by
  refine update_of_ne ?_ _ _
  rintro rfl
  exact hr hc

theorem Lists.joined (h : Lists net (· ∈ net.terminals) list) (kept : List Terminal)
    (hr : .reduced net.reduced ∉ net.root) : Lists (net.joined kept) (· ∈ net.terminals) list := by
  have hc : ∀ t, t ∈ net.terminals → (net.joined kept).circuit t.circuit = net.circuit t.circuit :=
    fun t ht => joined_circuit_of_mem kept hr (net.mem_terminals.mp ht).1
  refine h.congr (fun t ht => ?_) (fun t ht => by rw [hc t ht]) fun t ht => by rw [hc t ht]
  refine if_neg fun heq => hr ?_
  rw [← heq]
  exact (net.mem_terminals.mp ht).1

theorem Lists.remove_of_mem {T : Terminal → Prop} {kept : List Terminal}
    (h : Lists (net.joined kept) T list) (hr : .reduced net.reduced ∉ net.root) {c : Id}
    (hc : c ∈ net.root) (hport : (net.circuit c).port = 0)
    (hT : ∀ t ∈ net.terminals, t.circuit = c → T t) :
    Lists (net.joined kept) (fun t => T t ∧ t.circuit ≠ c) (list.remove (net.joined kept) c) := by
  have hcircuit := joined_circuit_of_mem kept hr hc
  refine h.remove (by rw [hcircuit, hport]) fun t ht => ?_
  obtain ⟨rfl, hindex⟩ := ((net.joined kept).mem_terminalsOf).mp ht
  rw [hcircuit] at hindex
  exact hT t (net.mem_terminals.mpr ⟨hc, hindex⟩) rfl

theorem Joins.lists (hj : Joins net net' n1 n2) (hr : .reduced net.reduced ∉ net.root)
    (h : Lists (net.joined (keptNodes net n1 n2)) (fun t => t ∈ net.terminals ∧
      t.circuit ≠ n1.circuit ∧ t.circuit ≠ n2.circuit) list) :
    Lists net' (· ∈ net'.terminals)
      (list.insert (net.joined (keptNodes net n1 n2)) (.reduced net.reduced)) := by
  let kept := keptNodes net n1 n2
  have hresult : (net.joined kept).circuit (.reduced net.reduced) =
      .create .other kept.length 0 := update_self _ _ _
  have hfresh : ∀ t ∈ net.terminals, t.circuit ≠ .reduced net.reduced := fun t ht heq =>
    hr (heq ▸ (net.mem_terminals.mp ht).1)
  have hinsert := h.insert (by rw [hresult]; rfl) fun t ht hold =>
    hfresh t hold.1 ((net.joined kept).mem_terminalsOf.mp ht).1
  have hmem : ∀ t, t ∈ net'.terminals ↔
      (t ∈ net.terminals ∧ t.circuit ≠ n1.circuit ∧ t.circuit ≠ n2.circuit) ∨
        t ∈ (net.joined kept).terminalsOf (.reduced net.reduced) := by
    intro t
    rw [net'.mem_terminals, hj.mem, (net.joined kept).mem_terminalsOf, hresult]
    by_cases ht : t.circuit = .reduced net.reduced
    · have hnot : t ∉ net.terminals := fun hmem => hfresh t hmem ht
      simp [ht, hj.result, hnot]
      rfl
    · rw [hj.circuit _ ht, net.mem_terminals]
      simp [ht]
      tauto
  have hcircuit : ∀ c, (net'.circuit c).port = ((net.joined kept).circuit c).port ∧
      (net'.circuit c).size = ((net.joined kept).circuit c).size := by
    intro c
    by_cases hc : c = .reduced net.reduced
    · rw [hc, hj.result, hresult]
      exact ⟨rfl, rfl⟩
    · rw [hj.circuit c hc]
      have hsame : (net.joined kept).circuit c = net.circuit c := update_of_ne hc _ _
      rw [hsame]
      exact ⟨rfl, rfl⟩
  refine (hinsert.of_iff hmem).congr (fun t ht => ?_) (fun t _ => (hcircuit _).1)
    fun t _ => (hcircuit _).2
  by_cases hc : t.circuit = .reduced net.reduced
  · have hindex := (net'.mem_terminals.mp ht).2
    rw [hc, hj.result] at hindex
    obtain ⟨c, i⟩ := t
    obtain rfl := hc
    have hi := getElem?_eq_getElem (show i < (keptNodes net n1 n2).length from hindex)
    rw [hj.names i _ hi]
    show net.name _ = if _ then _ else _
    rw [if_pos rfl, hi, Option.map_some, Option.getD_some]
  · rw [hj.name t hc]
    exact (if_neg hc).symm

/-- **One join**: the net and the list change together. -/
theorem reduce_spec (hL : Lists net (· ∈ net.terminals) list)
    (hsorted : list.sortedNodes = some (n1, n2)) (hnodup : net.root.Nodup)
    (hr : .reduced net.reduced ∉ net.root) (h1 : n1 ∈ net.terminals) (h2 : n2 ∈ net.terminals)
    (hport1 : (net.circuit n1.circuit).port = 0) (hport2 : (net.circuit n2.circuit).port = 0) :
    ∃ net' list', reduce net list = some (net', list') ∧ Joins net net' n1 n2 ∧
      Lists net' (· ∈ net'.terminals) list' := by
  have hc1 := (net.mem_terminals.mp h1).1
  have hc2 := (net.mem_terminals.mp h2).1
  have hjoined : ∀ {c} (kept : List Terminal), c ∈ net.root →
      (net.circuit c).port = 0 → ((net.joined kept).circuit c).port = 0 := by
    intro c kept hc hport
    rw [joined_circuit_of_mem kept hr hc, hport]
  have hL1 := (hL.joined (keptNodes net n1 n2) hr).remove_of_mem hr hc1 hport1 fun t ht _ => ht
  rw [reduce, hsorted, Option.map_some]
  dsimp only
  split
  case isTrue hne =>
    have hkept : net.connectedNodes n1 n2 = keptNodes net n1 n2 := by rw [keptNodes, if_pos hne]
    have hL2 := hL1.remove_of_mem hr hc2 hport2 fun t ht heq =>
      ⟨ht, fun h => hne (h.symm.trans heq)⟩
    have hj := joins_of_removes hr
      (removes_two hnodup hc1 hc2 hne (hjoined (keptNodes net n1 n2) hc1 hport1)
        (hjoined (keptNodes net n1 n2) hc2 hport2))
    rw [hkept]
    exact ⟨_, _, rfl, hj, hj.lists hr (hL2.of_iff fun t => and_assoc.symm)⟩
  case isFalse heq =>
    have heq := not_not.mp heq
    have hkept : net.interconnectedNodes n1 n2 = keptNodes net n1 n2 := by
      rw [keptNodes, if_neg (not_not.mpr heq)]
    have hremoves : ∀ c, c = n1.circuit → Removes (net.joined (keptNodes net n1 n2))
        ((net.joined (keptNodes net n1 n2)).removeCircuit n1.circuit true) n1.circuit c := by
      rintro c rfl
      exact removes_one hnodup hc1 (hjoined _ hc1 hport1)
    have hj := joins_of_removes hr (hremoves _ heq.symm)
    rw [hkept]
    refine ⟨_, _, rfl, hj, hj.lists hr (hL1.of_iff fun t => ?_)⟩
    rw [← heq, and_self_iff]

end JoinedList

end Qucs.Network
