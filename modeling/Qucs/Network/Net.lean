/-
# The net, its circuits and their terminals

`net.cpp`, `circuit.h`, `node.h`. Circuits are objects with an
identity; the net keeps two lists of them, those registered (`root`) and those
put aside (`drop`), and some counters. A node of the source belongs to one
circuit and has a name; it is called a terminal here, because nodes with the
same name are connected.

* circuit *: `Id`
* what `new` and the setters write: `Net.circuit`, `Net.name`

Both lists are prepended to, and a loop over `root` fetches the next circuit
before or after the body; a circuit put at the head is never met by a loop that
is under way. So a loop over `root` is a fold over the list at its start. What
a circuit computes (scattering matrices, noise) is not in its object here.
-/
import Mathlib.Data.List.Nodup
import Mathlib.Data.Nat.Digits.Defs
import Mathlib.Algebra.BigOperators.Group.List.Basic

namespace Qucs.Network

open List
open Function (update)

/-! ## Objects -/

/-- The identity of a circuit: one of the netlist, the number of an inserted
one, or the number of a reduced one. -/
inductive Id where
  | original (i : ℕ)
  | inserted (i : ℕ)
  | reduced (i : ℕ)
  deriving DecidableEq, Repr

/-- The component types that the net and the S-parameter solver tell apart. -/
inductive CircuitType where
  | ground | tee | cross | opened | itrafo | pac | other
  deriving DecidableEq, Repr

/-- A circuit. `port` is the number of an S-parameter port or zero, `num` the
property it comes from; `vsource` is the number of the first of `vsources`
voltage sources, negative as long as there is none. -/
structure Circuit where
  type : CircuitType
  size : ℕ
  port : ℕ
  num : ℕ
  subcircuit : String
  vsource : ℤ
  vsources : ℕ
  original : Bool
  deriving DecidableEq, Repr

/-- What the constructor of `circuit` makes of a type and a size. -/
def Circuit.create (type : CircuitType) (size vsources : ℕ) : Circuit where
  type := type
  size := size
  port := 0
  num := 0
  subcircuit := ""
  vsource := -1
  vsources := vsources
  original := true

/-- A node of a circuit. -/
structure Terminal where
  circuit : Id
  index : ℕ
  deriving DecidableEq, Repr

structure Net where
  circuit : Id → Circuit
  name : Terminal → String
  root : List Id
  drop : List Id
  nCircuits : ℤ
  nPorts : ℤ
  nSources : ℤ
  inserted : ℕ
  insertedNodes : ℕ
  reduced : ℕ

namespace Net

variable (net : Net)

/-! ## The list of circuits -/

/-- What `insertCircuit` writes into the object: the port number of an AC power
source at the top level, the number of the first voltage source. -/
def register (o : Circuit) : Circuit :=
  { o with
    port := if o.type = .pac ∧ o.subcircuit = "" ∧ o.port = 0 then o.num else o.port
    vsource := if 0 < o.vsources ∧ o.vsource < 0 then net.nSources else o.vsource }

def insertCircuit (c : Id) : Net :=
  let o := net.circuit c
  { net with
    circuit := update net.circuit c (net.register o)
    root := c :: net.root
    nCircuits := net.nCircuits + 1
    nPorts := if o.type = .pac ∧ o.subcircuit = "" then net.nPorts + 1 else net.nPorts
    nSources := net.nSources + o.vsources }

/-- A circuit that is not original is destroyed; here it is only not in a list
any more. -/
def removeCircuit (c : Id) (dropping : Bool) : Net :=
  let o := net.circuit c
  { net with
    root := net.root.erase c
    drop := if o.original ∧ dropping then c :: net.drop else net.drop
    nCircuits := net.nCircuits - 1
    nPorts := if o.port ≠ 0 then net.nPorts - 1 else net.nPorts
    nSources := if 0 ≤ o.vsource then net.nSources - o.vsources else net.nSources }

/-! ## Terminals -/

def terminalsOf (c : Id) : List Terminal := (List.range (net.circuit c).size).map (⟨c, ·⟩)

def terminals : List Terminal := net.root.flatMap net.terminalsOf

def setName (n : Terminal) (s : String) : Net :=
  { net with name := update net.name n s }

/-- The first other node with the same name. -/
def findConnectedNode (n : Terminal) : Option Terminal :=
  net.terminals.find? fun t => net.name t = net.name n ∧ t ≠ n

def carriers (x : String) : List Terminal := net.terminals.filter fun t => net.name t = x

/-! ## Inserted circuits and nodes -/

def inode (k : ℕ) : String := "inode" ++ toString k

/-- A new circuit, with the number by which it is found again. -/
def insertedCircuit (o : Circuit) : Net :=
  { net with
    circuit := update net.circuit (.inserted net.inserted) o
    inserted := net.inserted + 1 }

/-- A node gets an internal name. -/
def insertedNode (n : Terminal) : Net :=
  { net.setName n (inode net.insertedNodes) with insertedNodes := net.insertedNodes + 1 }

/-! ## Counting -/

/-- The nodes of all circuits but ports. -/
def countNodes : ℕ :=
  ((net.root.filter fun c => (net.circuit c).port = 0).map fun c => (net.circuit c).size).sum

/-- The number of ports. -/
def countPorts : ℕ := net.root.countP fun c => (net.circuit c).port ≠ 0

def countSources : ℕ := (net.root.map fun c => (net.circuit c).vsources).sum

/-! ## What the operations change -/

section Fields

variable (n : Terminal) (s : String) (c : Id) (o : Circuit)

@[simp] theorem setName_insertedNodes : (net.setName n s).insertedNodes = net.insertedNodes := rfl

theorem setName_name : (net.setName n s).name = update net.name n s := rfl

@[simp] theorem insertedNode_insertedNodes :
    (net.insertedNode n).insertedNodes = net.insertedNodes + 1 := rfl

theorem insertedNode_name :
    (net.insertedNode n).name = update net.name n (inode net.insertedNodes) := rfl

@[simp] theorem insertedCircuit_name : (net.insertedCircuit o).name = net.name := rfl

@[simp] theorem insertedCircuit_insertedNodes :
    (net.insertedCircuit o).insertedNodes = net.insertedNodes := rfl

theorem insertedCircuit_circuit : (net.insertedCircuit o).circuit =
    update net.circuit (.inserted net.inserted) o := rfl

@[simp] theorem insertCircuit_root : (net.insertCircuit c).root = c :: net.root := rfl

@[simp] theorem insertCircuit_name : (net.insertCircuit c).name = net.name := rfl

@[simp] theorem insertCircuit_insertedNodes :
    (net.insertCircuit c).insertedNodes = net.insertedNodes := rfl

theorem insertCircuit_circuit : (net.insertCircuit c).circuit =
    update net.circuit c (net.register (net.circuit c)) := rfl

end Fields

/-! ## Small facts -/

@[simp] theorem register_type (o : Circuit) : (net.register o).type = o.type := rfl

@[simp] theorem register_size (o : Circuit) : (net.register o).size = o.size := rfl

@[simp] theorem register_vsources (o : Circuit) : (net.register o).vsources = o.vsources := rfl

@[simp] theorem register_original (o : Circuit) : (net.register o).original = o.original := rfl

theorem register_port {o : Circuit} (h : o.type ≠ .pac) : (net.register o).port = o.port := by
  simp [register, h]

theorem mem_terminalsOf {c : Id} {t : Terminal} :
    t ∈ net.terminalsOf c ↔ t.circuit = c ∧ t.index < (net.circuit c).size := by
  obtain ⟨d, i⟩ := t
  simp only [terminalsOf, mem_map, mem_range, Terminal.mk.injEq]
  constructor
  · rintro ⟨j, hj, rfl, rfl⟩
    exact ⟨rfl, hj⟩
  · rintro ⟨rfl, hi⟩
    exact ⟨i, hi, rfl, rfl⟩

theorem mem_terminals {t : Terminal} :
    t ∈ net.terminals ↔ t.circuit ∈ net.root ∧ t.index < (net.circuit t.circuit).size := by
  simp only [terminals, mem_flatMap, mem_terminalsOf]
  constructor
  · rintro ⟨c, hc, rfl, hi⟩
    exact ⟨hc, hi⟩
  · rintro ⟨hc, hi⟩
    exact ⟨t.circuit, hc, rfl, hi⟩

theorem nodup_terminalsOf (c : Id) : (net.terminalsOf c).Nodup :=
  List.Nodup.map (fun i j h => by simpa using h) nodup_range

theorem nodup_terminals (h : net.root.Nodup) : net.terminals.Nodup := by
  refine nodup_flatMap.mpr ⟨fun c _ => net.nodup_terminalsOf c, ?_⟩
  refine h.imp ?_
  intro c d hcd t hc hd
  rw [mem_terminalsOf] at hc hd
  exact hcd (hc.1.symm.trans hd.1)

theorem mem_carriers {x : String} {t : Terminal} :
    t ∈ net.carriers x ↔ t ∈ net.terminals ∧ net.name t = x := by
  simp [carriers]

theorem inode_injective : Function.Injective inode := by
  intro j k h
  have hrepr : (toString j).toList = (toString k).toList := by
    have := congrArg String.toList h
    simpa [inode] using this
  have hdigits : ∀ n, (toString n).toList = Nat.toDigits 10 n := fun n => by
    simp [toString, Nat.repr]
  have := congrArg (fun l => Nat.ofDigitChars 10 l 0) hrepr
  simpa [Nat.ofDigitChars_toDigits] using this

theorem inode_ne {k : ℕ} {s : String} (h : s.toList.head? ≠ some 'i') : inode k ≠ s := by
  rintro rfl
  simp [inode] at h

end Net

/-! ## The counters -/

/-- The counters are right, and the circuits registered as the counters need
it: ports are the AC power sources at the top level, and voltage sources have a
number. -/
structure Counts (net : Net) : Prop where
  circuits : net.nCircuits = net.root.length
  ports : net.nPorts = net.countPorts
  sources : net.nSources = net.countSources
  port : ∀ c ∈ net.root, (net.circuit c).port ≠ 0 ↔
    (net.circuit c).type = .pac ∧ (net.circuit c).subcircuit = ""
  vsource : ∀ c ∈ net.root, 0 < (net.circuit c).vsources → 0 ≤ (net.circuit c).vsource

section Counts

open Net

variable {net net' : Net} {c : Id}

section

variable (h : ∀ d ∈ net.root, net'.circuit d = net.circuit d) (hroot : net'.root = net.root)
include h hroot

theorem countPorts_congr : net'.countPorts = net.countPorts := by
  rw [countPorts, countPorts, hroot]
  refine countP_congr fun d hd => ?_
  rw [h d hd]

theorem countSources_congr : net'.countSources = net.countSources := by
  rw [countSources, countSources, hroot]
  congr 1
  refine map_congr_left fun d hd => ?_
  rw [h d hd]

end

/-- A circuit that has been registered before stays as it is. -/
theorem Counts.register (h : Counts net) (hc : c ∈ net.root) (net' : Net) :
    net'.register (net.circuit c) = net.circuit c := by
  have hport : ¬((net.circuit c).type = .pac ∧ (net.circuit c).subcircuit = "" ∧
      (net.circuit c).port = 0) := fun ⟨htype, hsub, hzero⟩ => (h.port c hc).mpr ⟨htype, hsub⟩ hzero
  have hsource : ¬(0 < (net.circuit c).vsources ∧ (net.circuit c).vsource < 0) :=
    fun ⟨hpos, hneg⟩ => absurd (h.vsource c hc hpos) (not_le.mpr hneg)
  rw [Net.register, if_neg hport, if_neg hsource]

theorem Counts.congr (h : Counts net) (hcircuit : ∀ d ∈ net.root, net'.circuit d = net.circuit d)
    (hroot : net'.root = net.root) (hcircuits : net'.nCircuits = net.nCircuits)
    (hports : net'.nPorts = net.nPorts) (hsources : net'.nSources = net.nSources) :
    Counts net' where
  circuits := by rw [hcircuits, h.circuits, hroot]
  ports := by rw [hports, h.ports, countPorts_congr hcircuit hroot]
  sources := by rw [hsources, h.sources, countSources_congr hcircuit hroot]
  port := by
    rw [hroot]
    intro d hd
    rw [hcircuit d hd]
    exact h.port d hd
  vsource := by
    rw [hroot]
    intro d hd
    rw [hcircuit d hd]
    exact h.vsource d hd

theorem Counts.insertCircuit (h : Counts net) (hc : c ∉ net.root)
    (hport : (net.register (net.circuit c)).port ≠ 0 ↔
      (net.circuit c).type = .pac ∧ (net.circuit c).subcircuit = "") :
    Counts (net.insertCircuit c) := by
  have hcircuit : ∀ d ∈ net.root, (net.insertCircuit c).circuit d = net.circuit d := by
    intro d hd
    have hne : d ≠ c := by
      rintro rfl
      exact hc hd
    rw [insertCircuit_circuit, Function.update_of_ne hne]
  have hself : (net.insertCircuit c).circuit c = net.register (net.circuit c) := by
    rw [insertCircuit_circuit, Function.update_self]
  constructor
  case circuits =>
    rw [insertCircuit_root, length_cons, Nat.cast_succ, ← h.circuits]
    rfl
  case ports =>
    have hrest : net.root.countP (fun d => ((net.insertCircuit c).circuit d).port ≠ 0) =
        net.countPorts := countP_congr fun d hd => by rw [hcircuit d hd]
    rw [countPorts, insertCircuit_root, countP_cons, hrest, hself]
    by_cases hpac : (net.circuit c).type = .pac ∧ (net.circuit c).subcircuit = ""
    · simp [Net.insertCircuit, hpac, hport.mpr hpac, h.ports]
    · have hzero := not_not.mp (hpac ∘ hport.mp)
      simp [Net.insertCircuit, hpac, hzero, h.ports]
  case sources =>
    have hrest : net.root.map (fun d => ((net.insertCircuit c).circuit d).vsources) =
        net.root.map fun d => (net.circuit d).vsources :=
      map_congr_left fun d hd => by rw [hcircuit d hd]
    rw [countSources, insertCircuit_root, map_cons, hrest, hself, sum_cons, register_vsources]
    have := h.sources
    rw [countSources] at this
    simp [Net.insertCircuit, this, add_comm]
  case port =>
    intro d hd
    rcases mem_cons.mp hd with rfl | hd
    · rw [hself]
      exact hport
    · rw [hcircuit d hd]
      exact h.port d hd
  case vsource =>
    intro d hd
    rcases mem_cons.mp hd with rfl | hd
    · rw [hself]
      intro hpos
      have hnonneg : 0 ≤ net.nSources := h.sources ▸ Int.natCast_nonneg _
      simp only [Net.register]
      split_ifs with hneg
      · exact hnonneg
      · exact not_lt.mp fun hlt => hneg ⟨hpos, hlt⟩
    · rw [hcircuit d hd]
      exact h.vsource d hd

theorem Counts.removeCircuit (h : Counts net) (hc : c ∈ net.root) (dropping : Bool) :
    Counts (net.removeCircuit c dropping) := by
  have hperm := perm_cons_erase hc
  have hsub : ∀ d ∈ net.root.erase c, d ∈ net.root := fun d => mem_of_mem_erase
  constructor
  case circuits =>
    have := hperm.length_eq
    rw [length_cons] at this
    simp only [Net.removeCircuit, h.circuits, this]
    omega
  case ports =>
    have := hperm.countP_eq (fun d => decide ((net.circuit d).port ≠ 0))
    rw [countP_cons] at this
    simp only [Net.removeCircuit, countPorts, h.ports, this]
    split <;> simp_all
  case sources =>
    have hsum := (hperm.map fun d => (net.circuit d).vsources).sum_eq
    rw [map_cons, sum_cons] at hsum
    simp only [Net.removeCircuit, countSources, h.sources, hsum]
    have hv := h.vsource c hc
    split <;> omega
  case port => exact fun d hd => h.port d (hsub d hd)
  case vsource => exact fun d hd => h.vsource d (hsub d hd)

end Counts

/-- A net between two analyses: circuits of the netlist only, none put aside,
one of them the ground that the program adds itself; the AC power sources that
are ports have two nodes. -/
structure Netlist extends Net where
  nodup : root.Nodup
  original : ∀ c ∈ root, (∃ i, c = .original i) ∧ (circuit c).original
  ground : ∃ g ∈ root, ∀ c ∈ root, (circuit c).type = .ground ↔ c = g
  port_size : ∀ c ∈ root, (circuit c).port ≠ 0 → (circuit c).size = 2
  drop_nil : drop = []
  counts : Counts toNet

/-- No node has a name that the preparation uses itself. -/
def Netlist.UserNames (net : Netlist) : Prop :=
  ∀ t ∈ net.terminals, net.name t ≠ "PacGround" ∧ ∀ k, net.name t ≠ Net.inode k

end Qucs.Network
