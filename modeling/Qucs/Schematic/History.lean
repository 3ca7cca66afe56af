/-
# Undo, redo and save in the schematic editor

`qucs/qucs/schematic.cpp`. A document has two parts, the schematic and the
paintings of its circuit symbol, and for each of them a stack of texts. An edit
puts the text of the part that is edited on its stack; undo and redo load the text
next to the current one. The second character of a text is a mark: 'i' stands for
the state that was saved last.

* undoAction, undoActionIdx: `State.undoAction`
* undoSymbol, undoSymbolIdx: `State.undoSymbol`
* DocChanged, symbolMode: `State.docChanged`, `State.symbolMode`
* createUndoString, rebuild: `Editor.docs`
* createSymbolUndoString, rebuildSymbol: `Editor.symbols`

The entries of a stack are pointers to texts. They have an address here, so that
"the same entry" is more than "the same text". Two fields of the state are not in
the source and no operation reads them: the addresses of the entries that were
saved last, and whether a change was flagged since that has no entry.

That a text which is loaded gives back what it was made from is a field of
`Serializer`.
-/
import Qucs.Lib.Timeline

namespace Qucs.Schematic

open Lib.Timeline

/-! ## The circuit symbol -/

structure PortSymbol where
  cx : ℤ
  cy : ℤ
  numberStr : String
  nameStr : String
  angel : ℤ
  deriving DecidableEq

structure IdText where
  cx : ℤ
  cy : ℤ
  entity : String
  parameter : List String
  deriving DecidableEq

inductive Painting (O : Type) where
  | portSym (p : PortSymbol)
  | idText (t : IdText)
  | other (o : O)
  deriving DecidableEq

/-- What is read from the file that a symbol of a VHDL or Verilog module belongs
to. -/
structure HdlInfo where
  portNames : List String
  entityName : String
  parameter : List String

section Ports

variable {O : Type}

def deletePortName : Painting O → Painting O
  | .portSym p => .portSym { p with nameStr := "" }
  | p => p

def setEntity (info : HdlInfo) : Painting O → Painting O
  | .idText t => .idText { t with entity := info.entityName.toUpper, parameter := info.parameter }
  | p => p

def nameMatching (number name : String) : List (Painting O) → Option (List (Painting O))
  | [] => none
  | .portSym p :: ps =>
    if p.numberStr = number then some (.portSym { p with nameStr := name } :: ps)
    else (nameMatching number name ps).map (.portSym p :: ·)
  | p :: ps => (nameMatching number name ps).map (p :: ·)

/-- One port; a symbol that is missing is added at the next place. -/
def adjustPort (x : ℤ) (s : List (Painting O) × ℤ) (port : String × String) :
    List (Painting O) × ℤ :=
  match nameMatching port.1 port.2 s.1 with
  | some ps => (ps, s.2)
  | none => (s.1 ++ [.portSym ⟨x, s.2, port.1, port.2, 0⟩], s.2 + 40)

def isAccounted : Painting O → Bool
  | .portSym p => p.nameStr ≠ ""
  | _ => true

/-- The ports of the symbol become those that are listed, with number and name. -/
def adjustPorts (place : ℤ × ℤ) (ports : List (String × String)) (ps : List (Painting O)) :
    List (Painting O) :=
  (ports.foldl (adjustPort place.1) (ps, place.2)).1.filter isAccounted

end Ports

/-! ## The document -/

/-- How a part of a document is written and loaded. -/
structure Serializer (X T : Type) where
  create : X → T
  rebuild : T → X
  rebuild_create : ∀ x, rebuild (create x) = x

/-- What the history takes from the rest of the editor: `D` are the elements of
the schematic, `O` the paintings of the symbol that are no ports and no texts. -/
structure Editor (D O T : Type) where
  docs : Serializer D T
  symbols : Serializer (List (Painting O)) T
  /-- Number and name of the ports of the schematic. -/
  ports : D → List (String × String)
  /-- Where `sizeOfAll` and the grid leave room for new ports. -/
  place : List (Painting O) → ℤ × ℤ
  /-- The box and the lines that `createSubcircuitSymbol` draws. -/
  draw : ℕ → List (Painting O) → List (Painting O)
  /-- Whether the ports come from an HDL file. -/
  isHdl : Bool
  empty : D

/-- An entry of a stack: its address, the two characters in front, and the
text. -/
structure Entry (T : Type) where
  address : ℕ
  op : Char
  mark : Char
  text : T

structure State (D O T : Type) where
  undoAction : Stack (Entry T)
  undoSymbol : Stack (Entry T)
  symbolMode : Bool
  docChanged : Bool
  doc : D
  symbol : List (Painting O)
  hdl : HdlInfo
  maxUndo : ℕ
  heap : ℕ
  /-- The entries that were current when the document was saved or loaded. -/
  lastSaved : Option ℕ × Option ℕ
  /-- The document was flagged without an entry. -/
  flagged : Bool

namespace Editor

variable {D O T : Type} (E : Editor D O T) (s : State D O T)

/-- The symbol with its ports adjusted, and the number of ports. -/
def adjustPortNumbers : List (Painting O) × ℕ :=
  let place := E.place s.symbol
  let ps := s.symbol.map deletePortName
  if E.isHdl then
    let ports := s.hdl.portNames.zipIdx.map fun (name, i) => (toString (i + 1), name)
    (adjustPorts place ports (ps.map (setEntity s.hdl)), ports.length)
  else (adjustPorts place (E.ports s.doc) ps, (E.ports s.doc).length)

/-- `while (size > idx + 1)`, `append`, `idx++`, `while (size > maxUndo)`. -/
def pushSymbol (op : Char) (s : State D O T) : State D O T :=
  let entry := ⟨s.heap, op, ' ', E.symbols.create s.symbol⟩
  { s with undoSymbol := (s.undoSymbol.truncate.append entry).limit s.maxUndo, heap := s.heap + 1 }

/-- The same for the schematic; of the moves of a marker only the last is kept. -/
def pushAction (op : Char) (s : State D O T) : State D O T :=
  let entry := ⟨s.heap, op, ' ', E.docs.create s.doc⟩
  let stack := s.undoAction.truncate
  let stack := if op = 'm' ∧ (stack.current.map Entry.op) = some op then stack.popBack else stack
  { s with undoAction := (stack.append entry).limit s.maxUndo, heap := s.heap + 1 }

/-- The mark of the document, and a new entry. -/
def setChanged (c fillStack : Bool) (op : Char) (s : State D O T) : State D O T :=
  let s := { s with docChanged := c }
  if !fillStack then s
  else if s.symbolMode then E.pushSymbol op s
  else E.pushAction op s

/-- Whether both current entries carry the mark; in schematic mode the stack of the
symbol may be empty. -/
def isUnchanged : Bool :=
  s.undoAction.current.map Entry.mark = some 'i' &&
    (s.undoSymbol.current.map Entry.mark = some 'i' ||
      (!s.symbolMode && s.undoSymbol.entries.isEmpty))

/-- The symbol is made from the text of the current entry. -/
def rebuildSymbol : State D O T :=
  match s.undoSymbol.current with
  | some entry =>
    let s := { s with symbol := E.symbols.rebuild entry.text }
    { s with symbol := (E.adjustPortNumbers s).1 }
  | none => s

def rebuild : State D O T :=
  match s.undoAction.current with
  | some entry => { s with doc := E.docs.rebuild entry.text }
  | none => s

def flagChanged : State D O T :=
  { E.setChanged (!isUnchanged s) false '*' s with flagged := false }

def goToAction (stack : Stack (Entry T)) (s : State D O T) : State D O T :=
  E.flagChanged (E.rebuild { s with undoAction := stack })

def goToSymbol (stack : Stack (Entry T)) (s : State D O T) : State D O T :=
  E.flagChanged (E.rebuildSymbol { s with undoSymbol := stack })

/-- One entry back. -/
def undo : State D O T :=
  if s.symbolMode then
    if s.undoSymbol.atStart then s else E.goToSymbol s.undoSymbol.back s
  else
    if s.undoAction.atStart then s else E.goToAction s.undoAction.back s

/-- One entry forward. -/
def redo : State D O T :=
  if s.symbolMode then
    if s.undoSymbol.atEnd then s else E.goToSymbol s.undoSymbol.forward s
  else
    if s.undoAction.atEnd then s else E.goToAction s.undoAction.forward s

/-- The mark moves to the current entry. -/
def markCurrent (stack : Stack (Entry T)) : Stack (Entry T) :=
  stack.mapCurrent (fun e => { e with mark := 'i' }) fun e => { e with mark := ' ' }

def currentAddresses : Option ℕ × Option ℕ :=
  (s.undoAction.current.map Entry.address, s.undoSymbol.current.map Entry.address)

/-- The number of ports is never negative, so that the marks move if the file could
be written. -/
def save (written : Bool) (s : State D O T) : State D O T :=
  let s := { s with symbol := (E.adjustPortNumbers s).1 }
  if !written then s
  else
    let s := E.setChanged false false '*' s
    { s with
      undoAction := markCurrent s.undoAction
      undoSymbol := markCurrent s.undoSymbol
      lastSaved := currentAddresses s
      flagged := false }

/-- Both stacks start again with one entry. -/
def load (d : D) (ps : List (Painting O)) (s : State D O T) : State D O T :=
  { s with
    undoAction := ⟨[⟨s.heap, '*', 'i', E.docs.create d⟩], 0⟩
    undoSymbol := ⟨[⟨s.heap + 1, '*', 'i', E.symbols.create ps⟩], 0⟩
    symbolMode := false
    docChanged := false
    doc := d
    symbol := ps
    heap := s.heap + 2
    lastSaved := (some s.heap, some (s.heap + 1))
    flagged := false }

/-- A symbol of nothing but ports gets its lines. -/
def createSubcircuitSymbol : State D O T × Bool :=
  let (ps, countPort) := E.adjustPortNumbers s
  if ps.length ≠ countPort then ({ s with symbol := ps }, false)
  else ({ s with symbol := E.draw countPort ps }, true)

def edited (op : Char) (s : State D O T) : State D O T :=
  { E.setChanged true true op s with flagged := false }

/-- From the schematic to the symbol, or back. -/
def switchMode : State D O T :=
  let s := { s with symbolMode := !s.symbolMode }
  if s.symbolMode then
    let (s, created) := E.createSubcircuitSymbol s
    if created then E.edited '*' s else s
  else s

/-- The document as the constructor leaves it. -/
def fresh (hdl : HdlInfo) (maxUndo : ℕ) : State D O T where
  undoAction := ⟨[⟨0, ' ', 'i', E.docs.create E.empty⟩], 0⟩
  undoSymbol := ⟨[⟨1, ' ', 'i', E.symbols.create []⟩], 0⟩
  symbolMode := false
  docChanged := false
  doc := E.empty
  symbol := []
  hdl := hdl
  maxUndo := maxUndo
  heap := 2
  lastSaved := (some 0, some 1)
  flagged := false

end Editor

/-! ## What the user does -/

inductive Command (D O : Type) where
  /-- The part of the document that is shown is changed. -/
  | edit (op : Char) (doc : D) (symbol : List (Painting O))
  | undo
  | redo
  | save (written : Bool)
  | switchMode
  | load (doc : D) (symbol : List (Painting O))
  /-- The settings of the document, which have no entry. -/
  | settings
  /-- The file of the module is changed. -/
  | hdl (info : HdlInfo)
  | limit (maxUndo : ℕ)

namespace Editor

variable {D O T : Type} (E : Editor D O T) (s : State D O T)

def step : Command D O → State D O T
  | .edit op doc symbol =>
    E.edited op (if s.symbolMode then { s with symbol := symbol } else { s with doc := doc })
  | .undo => E.undo s
  | .redo => E.redo s
  | .save written => E.save written s
  | .switchMode => E.switchMode s
  | .load doc symbol => E.load doc symbol s
  | .settings => { E.setChanged true false '*' s with flagged := true }
  | .hdl info => { s with hdl := info }
  | .limit maxUndo => { s with maxUndo := maxUndo }

def run (cs : List (Command D O)) : State D O T := cs.foldl E.step s

/-- Every limit that is set is at least one. -/
def Limited (cs : List (Command D O)) : Prop := ∀ n, Command.limit n ∈ cs → 1 ≤ n

end Editor

end Qucs.Schematic
