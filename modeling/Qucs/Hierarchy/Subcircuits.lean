/-
# How the netlist checker flattens subcircuits

A parsed netlist is a list of definitions and a list of subcircuit types.
`checker_expand_subcircuits` replaces every instance of a type (a definition
of type `Sub`) by copies of the type's elements, with new instance and node
names:

* struct definition_t: `Definition`, `Subcircuit` for a `.Def`
* checker_find_subcircuit, checker_get_subcircuit: `findSubcircuit`, `getSubcircuit`
* checker_xlat_subcircuit_nodes: `xlat`, for one node
* checker_subcircuit_node/_instance: `subcircuitNode`

A node bound to a formal of the type is renamed to the actual of the instance;
below the root its copy is left blank, with the position of the formal, and the
caller fills it in. The `xlate` fields live on the template only while one
element is copied, so they are computed here where they are read. A null
pointer or a failed assertion is `none`; so is a recursion deeper than `fuel`.
-/
import Mathlib.Data.List.Basic

namespace Qucs.Hierarchy

/-- A definition line: a component, an instance of a subcircuit type or an
action. Of its properties only those whose value is an identifier are read by
the passes modelled here. -/
structure Definition where
  type : String
  instanceName : String
  nodes : List String := []
  refs : List (String × String) := []
  action : Bool := false
  nonlinear : Bool := false
  deriving DecidableEq, Repr

/-- `checker_find_reference`: the first identifier given for a property. -/
def Definition.findReference (d : Definition) (key : String) : Option String :=
  (d.refs.find? fun p => p.1 == key).map Prod.snd

def Definition.typeRef (d : Definition) : Option String := d.findReference "Type"

/-- A subcircuit type: its name, its formal nodes and its elements. -/
structure Subcircuit where
  instanceName : String
  nodes : List String
  sub : List Definition
  deriving DecidableEq, Repr

/-- The netlist: `definition_root` and `subcircuit_root`. -/
structure Netlist where
  root : List Definition
  subcircuits : List Subcircuit
  deriving Repr

def Definition.isSub (d : Definition) : Bool := d.type == "Sub"

def component (type inst : String) (nodes : List String) : Definition :=
  { type := type, instanceName := inst, nodes := nodes }

/-- An instance line, `Sub:inst nodes Type="type"`. -/
def subInstance (inst : String) (nodes : List String) (type : String) : Definition :=
  { type := "Sub", instanceName := inst, nodes := nodes, refs := [("Type", type)] }

def Netlist.findSubcircuit (net : Netlist) (n : String) : Option Subcircuit :=
  net.subcircuits.find? fun s => s.instanceName == n

def Netlist.getSubcircuit (net : Netlist) (d : Definition) : Option Subcircuit :=
  d.typeRef.bind net.findSubcircuit

/-! ## Node names -/

variable (type : Subcircuit) (inst : Definition)

/-- The actual and the position of the formal that a node of an element is
bound to; the loop runs over all formals, so the last one of that name counts. -/
def xlat (n : String) : Option (String × ℕ) :=
  ((type.nodes.zip inst.nodes).zipIdx 1).foldl
    (fun x p => if n = p.1.1 then some (p.1.2, p.2) else x) none

/-- The dotted text of a list of instances, none for the empty list. -/
def instanceList : List String → Option String
  | [] => none
  | i :: is => some (is.foldl (fun txt s => txt ++ "." ++ s) i)

/-- The name of an internal node, or of an element, of an instance. -/
def subcircuitNode (type : String) (instances : Option String) (inst node : String) : String :=
  match instances with
  | some list => type ++ "." ++ list ++ "." ++ inst ++ "." ++ node
  | none => type ++ "." ++ inst ++ "." ++ node

/-- Nodes that have the same name at every level. -/
def isGlobal (n : String) : Bool := n == "gnd" || n.toList.getLast? == some '!'

/-- A node of a copied element: blank while it waits for the caller's
translation. -/
structure Node where
  node : Option String
  xlatenr : ℕ
  deriving DecidableEq, Repr

/-- The copy of one node of an element of `type`, for its instance `inst`. -/
def newNode (instances : Option String) (n : String) :
    Node :=
  match xlat type inst n with
  | some (x, nr) =>
    match instances with
    | none => ⟨some x, nr⟩
    | some _ => ⟨none, nr⟩
  | none =>
    if isGlobal n then ⟨some n, 0⟩
    else ⟨some (subcircuitNode type.instanceName instances inst.instanceName n), 0⟩

structure Copy where
  type : String
  instanceName : String
  nodes : List Node
  deriving DecidableEq, Repr

/-- The nodes of an instance inside a subcircuit. -/
def copySubcircuitNodes (sub : Definition)
    (instances : Option String) : List Node :=
  sub.nodes.map (newNode type inst instances)

/-- Fills in one node that the copy of the instance `sub` left blank. -/
def fillNode (sub : Definition)
    (instances : Option String) (ncopy : Node) : Option Node :=
  match ncopy.node with
  | some _ => some ncopy
  | none =>
    if ncopy.xlatenr = 0 then none
    else (sub.nodes[ncopy.xlatenr - 1]?).map (newNode type inst instances)

/-- The nodes of a copied circuit are filled in. -/
def copyCircuitNodes (sub : Definition)
    (instances : Option String) (copy : Copy) : Option Copy :=
  (copy.nodes.mapM (fillNode type inst sub instances)).map fun nodes => { copy with nodes }

/-! ## Copies of subcircuits -/

/-- The copies of the elements of `type` for its instance `inst`, which lies in
the instances `instances`, in reverse order. -/
def copySubcircuits (net : Netlist) :
    ℕ → Subcircuit → Definition → List String → Option (List Copy)
  | 0, _, _, _ => none
  | fuel + 1, type, inst, instances =>
    type.sub.foldlM (fun root d =>
      if d.isSub then do
        let sub ← net.getSubcircuit d
        let copy ← copySubcircuits net fuel sub d (instances ++ [inst.instanceName])
        let copy ← copy.mapM (copyCircuitNodes type inst d (instanceList instances))
        some (copy ++ root)
      else
        some (⟨d.type, subcircuitNode type.instanceName (instanceList instances)
            inst.instanceName d.instanceName,
          copySubcircuitNodes type inst d (instanceList instances)⟩ :: root)) []

/-- The flat netlist. The list before the current definition is the
accumulator: copies are put at its head, a component stays where it is. -/
def expandSubcircuits (net : Netlist) (fuel : ℕ) : Option (List Copy) :=
  net.root.foldlM (fun before d =>
    if d.isSub then do
      let sub ← net.getSubcircuit d
      let copy ← copySubcircuits net fuel sub d []
      some (copy ++ before)
    else
      some (before ++ [⟨d.type, d.instanceName, d.nodes.map fun n => ⟨some n, 0⟩⟩])) []

end Qucs.Hierarchy
