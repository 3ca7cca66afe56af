/-
# Names for the nodes of a netlist

`qucs/qucs/schematic_file.cpp`. Before a netlist is written every node gets a
name. First come the labels of nodes and wires and the ground symbols; then each
of these names is spread along the wires; then a node that has no name yet gets a
new one, which is spread as well.

* DocNodes, DocWires, DocComps: `Sheet.docNodes`, `Sheet.docWires`, `Sheet.docComps`
* Node::Label, Node::Connections: `Sheet.label`, `Sheet.connections`
* Node::Name, Node::State: `Naming.name`, `Naming.state`

A sheet is well formed: a wire is among the connections of its two ports and of no
other node, and its ports are nodes of the document. Of a component only what
touches the names is here; that its subcircuit or its file could not be handled is
a flag (`Component.fails`).
-/
import Qucs.Lib.Flood

namespace Qucs.Schematic

open Lib.Flood
open Function (update)

structure Label where
  name : String
  initValue : String
  deriving DecidableEq

structure Wire (N : Type) where
  port1 : N
  port2 : N
  label : Option Label
  deriving DecidableEq

inductive Element (N : Type) where
  | wire (w : Wire N)
  | component

structure Component (N : Type) where
  isActive : Bool
  isGround : Bool
  connection : N
  fails : Bool

/-- A schematic with nodes `N`. -/
structure Sheet (N : Type) where
  docNodes : List N
  docWires : List (Wire N)
  docComps : List (Component N)
  label : N → Option Label
  connections : N → List (Element N)
  isAnalog : Bool
  ports_mem : ∀ w ∈ docWires, w.port1 ∈ docNodes ∧ w.port2 ∈ docNodes
  mem_connections : ∀ n w, Element.wire w ∈ connections n ↔
    w ∈ docWires ∧ (w.port1 = n ∨ w.port2 = n)

structure Naming (N : Type) where
  name : N → String
  state : N → Bool
  collect : List String
  countInit : ℕ

namespace Sheet

variable {N : Type} [DecidableEq N] (sheet : Sheet N)

/-- An initial value of a label is collected under the name of a node. -/
def createNodeSet (label : Option Label) (p1 : N) (s : Naming N) : Naming N :=
  match label with
  | none => s
  | some l =>
    if l.initValue = "" then s
    else { s with
      collect := s.collect ++ ["NodeSet:NS" ++ toString s.countInit ++ " " ++ s.name p1 ++
        " U=\"" ++ l.initValue ++ "\""]
      countInit := s.countInit + 1 }

/-- The end of a wire that a node does not see first. -/
def otherPort (w : Wire N) (p2 : N) : N := if p2 ≠ w.port1 then w.port1 else w.port2

/-- One connection of a node on the list `Cons`. -/
def propagateConnection (pn p2 : N) (s : Naming N × List N) (pe : Element N) : Naming N × List N :=
  match pe with
  | .component => s
  | .wire pw =>
    let p := otherPort pw p2
    if s.1.name p = "" then
      let s' := { s.1 with
        name := update s.1.name p (s.1.name pn)
        state := update s.1.state p true }
      (if sheet.isAnalog then createNodeSet pw.label pn s' else s', s.2 ++ [p])
    else s

def propagate (pn : N) : ℕ → List N → Naming N → Naming N
  | 0, _, s => s
  | _ + 1, [], s => s
  | fuel + 1, p2 :: cons, s =>
    let (s, cons) := (sheet.connections p2).foldl (sheet.propagateConnection pn p2) (s, cons)
    propagate pn fuel cons s

/-- A node gets on the list when it gets its name, so there are at most as many
rounds as nodes. -/
def propagateNode (pn : N) (s : Naming N) : Naming N :=
  sheet.propagate pn (sheet.docNodes.length + 1) [pn] s

def workOn (pn : N) (s : Naming N) : Naming N :=
  let s := if sheet.isAnalog then createNodeSet (sheet.label pn) pn s else s
  sheet.propagateNode pn { s with state := update s.state pn true }

def generatedName (z : ℕ) : String :=
  (if sheet.isAnalog then "_net" else "net_net") ++ toString z

variable (s : Naming N)

def throughNamedNodes : Naming N :=
  sheet.docNodes.foldl (fun s pn =>
    if s.name pn = "" then s else if s.state pn then s else sheet.workOn pn s) s

def nameNode (s : Naming N × ℕ) (pn : N) : Naming N × ℕ :=
  if s.1.name pn ≠ "" then s
  else
    (sheet.workOn pn { s.1 with name := update s.1.name pn (sheet.generatedName s.2) }, s.2 + 1)

def throughUnnamedNodes : Naming N :=
  (sheet.docNodes.foldl sheet.nameNode (s, 0)).1

def throughAllNodes (user : Bool) (s : Naming N) : Naming N :=
  if user then sheet.throughNamedNodes s else sheet.throughUnnamedNodes s

/-- Words of VHDL are avoided. -/
def userName (l : Label) : String := if sheet.isAnalog then l.name else "net" ++ l.name

/-- The names of before are deleted, those of labels are set. -/
def deleteNames : Naming N :=
  sheet.docNodes.foldl (fun s pn => { s with
    state := update s.state pn false
    name := update s.name pn ((sheet.label pn).elim "" sheet.userName) }) s

def nameWires : Naming N :=
  sheet.docWires.foldl (fun s pw =>
    match pw.label with
    | none => s
    | some l => { s with name := update s.name pw.port1 (sheet.userName l) }) s

def throughComp (pc : Component N) : Option (Naming N) :=
  if !pc.isActive then some s
  else if pc.fails then none
  else if pc.isGround then some { s with name := update s.name pc.connection "gnd" }
  else some s

def throughAllComps : Option (Naming N) := sheet.docComps.foldlM throughComp s

def giveNodeNames : Option (Naming N) := do
  let s ← sheet.throughAllComps (sheet.nameWires (sheet.deleteNames s))
  return sheet.throughAllNodes false (sheet.throughAllNodes true s)

end Sheet

end Qucs.Schematic
