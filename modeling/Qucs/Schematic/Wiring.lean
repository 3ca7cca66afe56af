/-
# Nodes and wires of a schematic

The functions of `schematic_element.cpp` that put component ports and wires into a
schematic and take wires out. A wire that is put in connects to what it meets: to
nodes at its ends, to wires its ends lie on, to wires it lengthens, and at last it
is cut at every node it covers.

* Schematic::connectHWires1 ..: `Sheet.connectHWires1` .. `Sheet.connectVWires2`
* Schematic::insertWire: `Sheet.insertWire`, its last loop `Sheet.cover`

Pointers are numbers, counted up as objects are made. `node` and `wire` are what
they point to; `Nodes` and `Wires` are the lists of those in the schematic, and
what is taken out of these lists is deleted. A wire that is being inserted is in
no list yet. The port of a component keeps the node it got.

The last loop of `insertWire` can go on with a node it has deleted; then the
insertion has no result, as when its fuel does not suffice.

Labels, selection and the drawing are left out.
-/
import Qucs.Lib.Segments

namespace Qucs.Wiring

open Lib.Segments

inductive Element where
  | wire (w : ℕ)
  | component (c : ℕ)
  deriving DecidableEq, Repr

structure Node where
  cx : ℤ
  cy : ℤ
  connections : List Element
  deriving DecidableEq, Repr

structure Wire extends Segment where
  port1 : ℕ
  port2 : ℕ
  deriving DecidableEq, Repr

def Wire.port (w : Wire) : Side → ℕ
  | .one => w.port1
  | .two => w.port2

def Wire.setPort (w : Wire) (n : ℕ) : Side → Wire
  | .one => { w with port1 := n }
  | .two => { w with port2 := n }

/-- One end put to another place on its axis and to another node. -/
def Wire.moveEnd (w : Wire) (σ : Side) (a : Axis) (c : ℤ) (n : ℕ) : Wire :=
  Wire.setPort { w with toSegment := w.move c σ a } n σ

def Wire.hits (w : Wire) (x y : ℤ) : Bool :=
  if w.x1 = x then !decide (w.y1 > y) && !decide (w.y2 < y)
  else if w.y1 = y then !decide (w.x1 > x) && !decide (w.x2 < x)
  else false

def Wire.coversNode (w : Wire) (n : Node) : Bool :=
  if n.cx = w.x1 then !decide (n.cy ≤ w.y1) && !decide (n.cy ≥ w.y2)
  else if n.cy = w.y1 then !decide (n.cx ≤ w.x1) && !decide (n.cx ≥ w.x2)
  else false

structure Sheet where
  nodes : List ℕ
  node : ℕ → Node
  wires : List ℕ
  wire : ℕ → Wire
  /-- The ports of the components, each with its `Connection`. -/
  ports : List (ℕ × ℕ)
  fresh : ℕ

namespace Sheet

def empty : Sheet where
  nodes := []
  node := fun _ => ⟨0, 0, []⟩
  wires := []
  wire := fun _ => ⟨⟨0, 0, 0, 0⟩, 0, 0⟩
  ports := []
  fresh := 0

/-! ## The lists -/

variable (s : Sheet)

def relink (n : ℕ) (f : List Element → List Element) : Sheet :=
  let N := s.node n
  { s with node := Function.update s.node n { N with connections := f N.connections } }

/-- `Connections.append`. -/
def append (n : ℕ) (e : Element) : Sheet := s.relink n (· ++ [e])

/-- `Connections.prepend`. -/
def prepend (n : ℕ) (e : Element) : Sheet := s.relink n (e :: ·)

/-- `Connections.removeRef`. -/
def removeRef (n : ℕ) (e : Element) : Sheet := s.relink n (·.erase e)

/-- `Connections.count`. -/
def count (n : ℕ) : ℕ := (s.node n).connections.length

/-- A new node, appended to `Nodes`; its pointer was the next one. -/
def newNode (x y : ℤ) : Sheet :=
  { s with
    nodes := s.nodes ++ [s.fresh]
    node := Function.update s.node s.fresh ⟨x, y, []⟩
    fresh := s.fresh + 1 }

def removeNode (n : ℕ) : Sheet := { s with nodes := s.nodes.erase n }

def setWire (w : ℕ) (W : Wire) : Sheet :=
  { s with wire := Function.update s.wire w W }

/-- A new wire, not yet in `Wires`; its pointer was the next one. -/
def newWire (W : Wire) : Sheet :=
  { s.setWire s.fresh W with fresh := s.fresh + 1 }

def appendWire (w : ℕ) : Sheet := { s with wires := s.wires ++ [w] }

def removeWire (w : ℕ) : Sheet := { s with wires := s.wires.erase w }

def nodeAt (x y : ℤ) : Option ℕ :=
  s.nodes.find? fun n => (s.node n).cx = x ∧ (s.node n).cy = y

def wireAt (x y : ℤ) : Option ℕ := s.wires.find? fun w => (s.wire w).hits x y

/-! ## Nodes -/

/-- The wire `pw` is cut at the node `pn`; the second piece is the new one. -/
def splitWire (pw pn : ℕ) : Sheet :=
  let W := s.wire pw
  let P := s.node pn
  let newWire := s.fresh
  let s := s.newWire ⟨⟨P.cx, P.cy, W.x2, W.y2⟩, pn, W.port2⟩
  let s := s.setWire pw ⟨⟨W.x1, W.y1, P.cx, P.cy⟩, W.port1, pn⟩
  let s := s.prepend W.port2 (.wire newWire)
  let s := s.prepend pn (.wire pw)
  let s := s.prepend pn (.wire newWire)
  let s := s.removeRef W.port2 (.wire pw)
  s.appendWire newWire

/-- The node for a port of the component `c`. -/
def insertNode (x y : ℤ) (c : ℕ) : ℕ × Sheet :=
  match s.nodeAt x y with
  | some pn => (pn, s.append pn (.component c))
  | none =>
    let pn := s.fresh
    let s := (s.newNode x y).append pn (.component c)
    match s.wireAt x y with
    | some pw => (pn, s.splitWire pw pn)
    | none => (pn, s)

/-- What the callers do with the node: the port of the component keeps it. -/
def insertPort (x y : ℤ) (c : ℕ) : Sheet :=
  let (pn, s) := s.insertNode x y c
  { s with ports := s.ports ++ [(c, pn)] }

/-! ## The ends of a new wire -/

def attach (σ : Side) (w n : ℕ) : Sheet :=
  (s.append n (.wire w)).setWire w ((s.wire w).setPort n σ)

def attachNew (σ : Side) (w : ℕ) : Sheet :=
  (s.newNode ((s.wire w).endpoint σ).1 ((s.wire w).endpoint σ).2).attach σ w s.fresh

/-- The wire `w` takes the place of `pw` up to the end `σ` of `pw`; the node `n`
in between is deleted. -/
def lengthen (σ : Side) (a : Axis) (w pw n : ℕ) : Sheet :=
  let W := s.wire pw
  let s := s.setWire w ((s.wire w).moveEnd σ a (W.coord σ a) (W.port σ))
  let s := s.removeNode n
  let s := s.removeRef (W.port σ) (.wire pw)
  let s := s.append (W.port σ) (.wire w)
  s.removeWire pw

/-- The wire `pw` starts where `w` does and lies within it, with an open end. -/
def swallow (σ : Side) (pw : ℕ) : Sheet :=
  let W := s.wire pw
  let s := s.removeRef (W.port σ) (.wire pw)
  let s := s.removeNode (W.port σ.other)
  s.removeWire pw

/-- The wire `w` shall begin only where `pw` ends. -/
def shorten (σ : Side) (a : Axis) (w pw : ℕ) : Sheet :=
  let W := s.wire pw
  let s := s.setWire w ((s.wire w).moveEnd σ a (W.coord σ.other a) (W.port σ.other))
  s.append (W.port σ.other) (.wire w)

/-- The axis of the branch in which a wire was found to lie over a place. -/
def branch (x : ℤ) (ptr2 : ℕ) : Axis :=
  if (s.wire ptr2).x1 = x then .vertical else .horizontal

/-- Connects the first end of a new wire. -/
def insertWireNode1 (w : ℕ) : ℕ × Sheet :=
  let W := s.wire w
  match s.nodeAt W.x1 W.y1 with
  | some pn => (2, s.attach .one w pn)
  | none =>
    match s.wireAt W.x1 W.y1 with
    | none => (1, s.attachNew .one w)
    | some ptr2 =>
      let V := s.wire ptr2
      let a := s.branch W.x1 ptr2
      if V.isHorizontal = W.isHorizontal then
        -- new wire lies within an existing wire
        if V.coord .two a ≥ W.coord .two a then (0, s)
        -- one part of the wire lies within an existing wire, the other part not
        else if s.count V.port2 = 1 then (2, s.lengthen .one a w ptr2 V.port2)
        else (2, s.shorten .one a w ptr2)
      else (2, (s.attachNew .one w).splitWire ptr2 s.fresh)

/-- The loop of `connectHWires1` and `connectVWires1` over the connections before the
last one, from the last to the first. -/
def connectLoop1 (s : Sheet) (a : Axis) (w n : ℕ) : List Element → Bool × Sheet
  | [] => (true, s)
  | .component _ :: es => s.connectLoop1 a w n es
  | .wire pw :: es =>
    let W := s.wire w
    let V := s.wire pw
    if V.axis ≠ a then s.connectLoop1 a w n es
    else if V.coord .one a < W.coord .one a then
      if s.count n ≠ 2 then s.connectLoop1 a w n es
      -- new wire lengthens an existing one
      else (true, s.lengthen .one a w pw n)
    -- new wire lies within an existing one
    else if V.coord .two a ≥ W.coord .two a then (false, s.removeRef n (.wire w))
    -- existing wire lies within the new one
    else if s.count V.port2 < 2 then (true, s.swallow .one pw)
    else (true, (s.removeRef n (.wire w)).shorten .one a w pw)

def connectWires1 (a : Axis) (w : ℕ) : Bool × Sheet :=
  let n := (s.wire w).port1
  -- last connection is the new wire itself
  s.connectLoop1 a w n (s.node n).connections.dropLast.reverse

def connectHWires1 (w : ℕ) : Bool × Sheet := s.connectWires1 .horizontal w

def connectVWires1 (w : ℕ) : Bool × Sheet := s.connectWires1 .vertical w

/-- Connects the second end of a new wire. -/
def insertWireNode2 (w : ℕ) : ℕ × Sheet :=
  let W := s.wire w
  match s.nodeAt W.x2 W.y2 with
  | some pn => (2, s.attach .two w pn)
  | none =>
    match s.wireAt W.x2 W.y2 with
    | none => (1, s.attachNew .two w)
    | some ptr2 =>
      let V := s.wire ptr2
      let a := s.branch W.x2 ptr2
      if V.isHorizontal = W.isHorizontal then
        if s.count V.port1 = 1 then (2, s.lengthen .two a w ptr2 V.port1)
        else (2, s.shorten .two a w ptr2)
      else (2, (s.attachNew .two w).splitWire ptr2 s.fresh)

def connectLoop2 (s : Sheet) (a : Axis) (w n : ℕ) : List Element → Sheet
  | [] => s
  | .component _ :: es => s.connectLoop2 a w n es
  | .wire pw :: es =>
    let W := s.wire w
    let V := s.wire pw
    if V.axis ≠ a then s.connectLoop2 a w n es
    else if V.coord .two a > W.coord .two a then
      if s.count n ≠ 2 then s.connectLoop2 a w n es
      else s.lengthen .two a w pw n
    -- that the new wire lies within an existing one was checked before
    else if s.count V.port1 < 2 then s.swallow .two pw
    else (s.removeRef n (.wire w)).shorten .two a w pw

def connectWires2 (a : Axis) (w : ℕ) : Sheet :=
  let n := (s.wire w).port2
  s.connectLoop2 a w n (s.node n).connections.dropLast.reverse

/-- It always answers `true`, as `connectVWires2` does. -/
def connectHWires2 (w : ℕ) : Sheet := s.connectWires2 .horizontal w

def connectVWires2 (w : ℕ) : Sheet := s.connectWires2 .vertical w

/-! ## Covered nodes -/

/-- The wire `pw` now begins at `pn2`; what it had before `pn` becomes a wire of its
own. -/
def cut (pw pn pn2 : ℕ) : Sheet :=
  let W := s.wire pw
  let P := s.node pn
  let s :=
    if W.x1 ≠ P.cx ∨ W.y1 ≠ P.cy then
      let nw := s.fresh
      let s := s.newWire ⟨⟨W.x1, W.y1, P.cx, P.cy⟩, W.port1, pn⟩
      ((s.append pn (.wire nw)).appendWire nw).append W.port1 (.wire nw)
    else s
  let s := s.removeRef W.port1 (.wire pw)
  let s := s.setWire pw ⟨⟨(s.node pn2).cx, (s.node pn2).cy, W.x2, W.y2⟩, pn2, W.port2⟩
  s.append pn2 (.wire pw)

/-- Where the list `Nodes` stands after `removeRef`: at the node that followed, or at
the last one. -/
def cursorAfter (n : ℕ) : ℕ :=
  if s.nodes.idxOf n + 1 < s.nodes.length then s.nodes.idxOf n else s.nodes.length - 2

/-- The first wire at the node `pn` along the wire `pw`. -/
def along (pw pn : ℕ) : Option ℕ :=
  (s.node pn).connections.findSome? fun
    | .wire nw => if (s.wire pw).isHorizontal = (s.wire nw).isHorizontal then some nw else none
    | .component _ => none

/-- What is done with the node `pn`, the `i`th of the list, under the wire `pw`.
Where the list then stands is the first component. -/
def coverNode (pw pn i : ℕ) : Option (ℕ × Sheet) :=
  match s.along pw pn with
  | none => some (i, s.cut pw pn pn)
  | some nw =>
    let p1 := (s.wire nw).port1
    let p2 := (s.wire nw).port2
    if s.count p1 = 1 then
      -- both nodes of the wire are deleted, the loop goes on with the first one
      if s.count p2 = 1 then none
      else
        let i' := s.cursorAfter p1
        let s := ((s.removeNode p1).removeRef p2 (.wire nw)).removeWire nw
        some (i', s.cut pw p2 p2)
    else if s.count p2 = 1 then
      let i' := s.cursorAfter p2
      let s := ((s.removeRef p1 (.wire nw)).removeNode p2).removeWire nw
      some (i', s.cut pw p1 p1)
    else
      let s := if p1 = p2 then s.removeWire nw else s
      some (i, s.cut pw p1 p2)

/-- For the wire `pw` the nodes from the `i`th on, then the wires after it. -/
def cover : ℕ → ℕ → ℕ → Sheet → Option Sheet
  | 0, _, _, _ => none
  | fuel + 1, pw, i, s =>
    match s.nodes[i]? with
    | none =>
      match s.wires[s.wires.idxOf pw + 1]? with
      | none => some s
      | some pw => cover fuel pw 0 s
    | some pn =>
      if (s.wire pw).coversNode (s.node pn) then
        match s.coverNode pw pn i with
        | none => none
        | some (i, s) => cover fuel pw (i + 1) s
      else cover fuel pw (i + 1) s

/-! ## Wires -/

/-- Port 1 coordinates must be less than port 2 coordinates. -/
def order (x1 y1 x2 y2 : ℤ) : ℕ × Segment :=
  if x1 > x2 then (0, ⟨x2, y1, x1, y2⟩)
  else if y1 > y2 then (0, ⟨x1, y2, x2, y1⟩)
  else (0x100, ⟨x1, y1, x2, y2⟩)

/-- A new wire, with all it runs into. -/
def insertWire (fuel : ℕ) (s : Sheet) (x1 y1 x2 y2 : ℤ) : Option (ℕ × Sheet) :=
  let (con, W) := order x1 y1 x2 y2
  let w := s.fresh
  let s := s.newWire ⟨W, 0, 0⟩
  let (tmp, s) := s.insertWireNode1 w
  -- no new wire and no open connection
  if tmp = 0 then some (3, s)
  else
    let con := if tmp > 1 then con ||| 2 else con
    let (ok, s) := if (s.wire w).isHorizontal then s.connectHWires1 w else s.connectVWires1 w
    if !ok then some (3, s)
    else
      let (tmp, s) := s.insertWireNode2 w
      if tmp = 0 then some (3, s)
      else
        let con := if tmp > 1 then con ||| 1 else con
        let s := if (s.wire w).isHorizontal then s.connectHWires2 w else s.connectVWires2 w
        -- change node 1 and 2
        let con := if con > 255 then ((con >>> 1) &&& 1) ||| ((con <<< 1) &&& 2) else con
        (cover fuel w 0 (s.appendWire w)).map fun s => (con ||| 0x200, s)

/-- The wire `e1` takes over what follows the node `n` with the wire `e2`. -/
def join (e1 e2 n : ℕ) : Sheet :=
  let W := s.wire e2
  let s := s.setWire e1 { s.wire e1 with x2 := W.x2, y2 := W.y2, port2 := W.port2 }
  let s := s.removeNode n
  let s := s.removeRef W.port2 (.wire e2)
  let s := s.append W.port2 (.wire e1)
  s.removeWire e2

/-- Two wires become one, if they are on one line. -/
def oneTwoWires (n : ℕ) : Sheet :=
  match (s.node n).connections.head?, (s.node n).connections.getLast? with
  | some (.wire e1), some (.wire e2) =>
    if (s.wire e1).isHorizontal = (s.wire e2).isHorizontal then
      -- e1 must have lesser coordinates
      if (s.wire e1).x1 = (s.wire e2).x2 ∧ (s.wire e1).y1 = (s.wire e2).y2 then s.join e2 e1 n
      else s.join e1 e2 n
    else s
  | _, _ => s

/-- What `deleteWire` does with one of the two nodes of the wire. -/
def release (w n : ℕ) : Sheet :=
  if s.count n = 1 then s.removeNode n
  else
    let s := s.removeRef n (.wire w)
    if s.count n = 2 then s.oneTwoWires n else s

def deleteWire (w : ℕ) : Sheet :=
  let s := s.release w (s.wire w).port1
  let s := s.release w (s.wire w).port2
  s.removeWire w

end Sheet

end Qucs.Wiring
