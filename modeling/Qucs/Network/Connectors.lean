/-
# The connectors of the S-parameter solver

`spsolver.cpp`. The reduction of a network joins two terminals at
a time, so every node must have exactly two. `insertConnections` sees to that
before an analysis: it puts tees and crosses where more terminals meet, an open
where one is alone, a transformer before every port and a ground at every
terminal that is grounded; `dropConnections` takes all of it away again.

* spsolver::insertTee, ::insertCross: `insertTee`, `insertCross`
* spsolver::insertGround, …: `insertGround`, `dropGround`

The flags `USE_GROUNDS` and `USE_CROSSES` are set, as in the source. Left out
are the counters for the log (`tees`, `crosses`, `opens`, `grounds`), the
property `Z` of the transformer and the matrices the new circuits allocate.
-/
import Qucs.Network.Net

namespace Qucs.Network

open Net

/-! ## Tees and crosses -/

/-- New nodes of the connector `c`, from number `i` on, and the nodes connected
to them renamed. -/
def attach (c : Id) : ℕ → List Terminal → Net → Net
  | _, [], net => net
  | i, n :: nodes, net =>
    let net := net.insertedNode ⟨c, i⟩
    attach c (i + 1) nodes (net.setName n (net.name ⟨c, i⟩))

/-- A new connector: its first node takes the name, its others get new names and
pass them to the given nodes. -/
def insertConnector (o : Circuit) (net : Net) (nodes : List Terminal) (name : String) : Net :=
  let c := Id.inserted net.inserted
  (attach c 1 nodes ((net.insertedCircuit o).setName ⟨c, 0⟩ name)).insertCircuit c

/-- A tee for three nodes. -/
def insertTee : Net → List Terminal → String → Net := insertConnector (.create .tee 3 0)

/-- The constructor of a cross already asks for three voltage sources. -/
def insertCross : Net → List Terminal → String → Net := insertConnector (.create .cross 4 3)

/-- The loop body of `insertConnectors`: the net, and the nodes collected for
the next connector. After a cross that is its first node. -/
def connectorStep (n : Terminal) (name : String) (s : Net × List Terminal) (t : Terminal) :
    Net × List Terminal :=
  if s.1.name t = name ∧ t ≠ n then
    let nodes := s.2 ++ [t]
    if nodes.length = 3 then (insertCross s.1 nodes name, [⟨.inserted s.1.inserted, 0⟩])
    else (s.1, nodes)
  else s

variable (net : Net)

/-- If using crosses there can be a tee left. -/
def insertConnectors (n : Terminal) : Net :=
  let name := net.name n
  if name = "gnd" then net
  else
    let s := net.terminals.foldl (connectorStep n name) (net, [])
    if s.2.length = 2 then insertTee s.1 s.2 name else s.1

/-! ## Opens, grounds and ports -/

/-- A node that is connected to none gets an open. -/
def insertOpen (n : Terminal) : Net :=
  if net.name n ≠ "gnd" ∧ net.findConnectedNode n = none then
    let c := Id.inserted net.inserted
    ((net.insertedCircuit (.create .opened 1 0)).setName ⟨c, 0⟩ (net.name n)).insertCircuit c
  else net

/-- A node of its own for a terminal that is grounded. -/
def insertGround (n : Terminal) : Net :=
  if net.name n = "gnd" ∧ (net.circuit n.circuit).port = 0 ∧
      (net.circuit n.circuit).type ≠ .ground then
    let c := Id.inserted net.inserted
    let net := (net.insertedCircuit (.create .ground 1 0)).insertedNode ⟨c, 0⟩
    (net.setName n (net.name ⟨c, 0⟩)).insertCircuit c
  else net

/-- An ideal transformer takes the nodes of a port; the port gets a new node and
a ground of its own. -/
def insertDifferentialPort (p : Id) : Net :=
  if (net.circuit p).port ≠ 0 then
    let c := Id.inserted net.inserted
    let net := (net.insertedCircuit (.create .itrafo 3 0)).insertedNode ⟨c, 0⟩
    let net := (net.setName ⟨c, 1⟩ (net.name ⟨p, 0⟩)).setName ⟨c, 2⟩ (net.name ⟨p, 1⟩)
    let net := (net.setName ⟨p, 0⟩ (net.name ⟨c, 0⟩)).setName ⟨p, 1⟩ "PacGround"
    net.insertCircuit c
  else net

def insertDifferentialPorts : Net := net.root.foldl insertDifferentialPort net

/-! ## The whole preparation -/

/-- The net and the ground that has been taken out of it. -/
structure Prepared where
  net : Net
  gnd : Option Id

/-- The original ground is removed, without a trace in the drop list. -/
def removeGround (s : Prepared) : Prepared :=
  match s.net.root.find? fun c => (s.net.circuit c).type = .ground with
  | some g => ⟨s.net.removeCircuit g false, some g⟩
  | none => s

def connectAll : Net :=
  net.terminals.foldl (fun net n => insertOpen (insertConnectors net n) n) net

def groundAll : Net := net.terminals.foldl insertGround net

def insertConnections (s : Prepared) : Prepared :=
  let s := removeGround s
  { s with net := groundAll (insertDifferentialPorts (connectAll s.net)) }

/-! ## Dropping -/

/-- Give the node connected to `n` a name; without such a node the source
dereferences a null pointer. -/
def renameConnected (n : Terminal) (name : String) : Option Net :=
  (net.findConnectedNode n).map fun t => net.setName t name

/-- Remove a connector that is not to be kept. -/
def discard (c : Id) : Net :=
  { net with
    circuit := Function.update net.circuit c
      { net.circuit c with original := false } }.removeCircuit c true

/-- The nodes connected to the given nodes of a connector take its name, one
after the other. -/
def dropConnector (indices : List ℕ) (net : Net) (c : Id) : Option Net :=
  let name := net.name ⟨c, 0⟩
  (indices.foldlM (fun net i => renameConnected net ⟨c, i⟩ name) net).map (discard · c)

def dropTee : Net → Id → Option Net := dropConnector [1, 2]

def dropCross : Net → Id → Option Net := dropConnector [1, 2, 3]

/-- An open leaves nothing behind. -/
def dropOpen (c : Id) : Net := discard net c

/-- The node connected to it is `gnd` again. -/
def dropGround (c : Id) : Option Net :=
  (renameConnected net ⟨c, 0⟩ "gnd").map (discard · c)

def dropDifferentialPort (c : Id) : Option Net :=
  (net.findConnectedNode ⟨c, 0⟩).map fun n =>
    let pac := n.circuit
    discard ((net.setName ⟨pac, 0⟩ (net.name ⟨c, 1⟩)).setName ⟨pac, 1⟩ (net.name ⟨c, 2⟩)) c

/-- When a circuit was inserted; -1 for any other circuit. -/
def getInserted : Id → ℤ
  | .inserted i => i
  | _ => -1

def lastInserted : Option Id :=
  (net.root.foldl (fun (s : ℤ × Option Id) c =>
    if getInserted c > s.1 then (getInserted c, some c) else s) (-1, none)).2

/-- One round of the loop; a circuit of another type stays, and the source would
find it again and again. -/
def dropLast (c : Id) : Option Net :=
  match (net.circuit c).type with
  | .opened => some (dropOpen net c)
  | .tee => dropTee net c
  | .cross => dropCross net c
  | .ground => dropGround net c
  | .itrafo => dropDifferentialPort net c
  | _ => some net

def dropAll : ℕ → Net → Option Net
  | 0, _ => none
  | fuel + 1, net =>
    match lastInserted net with
    | none => some net
    | some c => (dropLast net c).bind (dropAll fuel)

/-- In the end the original ground is attached again; without one the source
dereferences a null pointer. -/
def dropConnections (fuel : ℕ) (s : Prepared) : Option Prepared := do
  let net ← dropAll fuel s.net
  let g ← s.gnd
  some { s with net := net.insertCircuit g }

end Qucs.Network
