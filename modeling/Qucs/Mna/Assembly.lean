/-
# Setting up the MNA equations

`nasolver.cpp`: `createMatrix` with its parts, together with
what they read — the node list (`nodelist.cpp`), the numbering of the voltage
sources, and the accessors of the circuits' own matrices (`circuit.cpp`).

* nodelist::nodelist (first loop): `uniqueNames`
* nodelist::nodelist (second loop): `terminals`
* nodelist::assignNodes: `narray` (the ground node has number 0)

A circuit is identified by its position in the circuit list, which is what
comparing pointers comes to; a terminal is a circuit and a port. `createDMatrix`
and `createEVector` use the pointer `findVoltageSource` returns without a test, so
they answer `none` for a null pointer. The entries are taken from any type with an
addition, as `nr_type_t` is a parameter of the solver.

Two things are fixed when a net is handed to the solver. There is always a
circuit at the ground node: `main` puts a ground circuit into every net. And
a circuit that is no current source and not nonlinear has no currents to
contribute: every component that sets them sets one of the two flags.
-/
import Qucs.Lib.Fill

namespace Qucs.Mna

open Lib.Fill
open List (range finRange product)

/-- What the assembly reads of a circuit. -/
structure Circuit (K : Type) [Zero K] where
  size : Nat
  node : Nat → String
  vsource : Int
  vsources : Nat
  matrixY : Nat → K
  matrixB : Nat → K
  matrixC : Nat → K
  matrixD : Nat → K
  vectorI : Nat → K
  vectorE : Nat → K
  isISource : Bool
  isNonLinear : Bool
  no_current : isISource = false → isNonLinear = false → ∀ port, vectorI port = 0

section Accessors

variable {K : Type} [Zero K]

namespace Circuit

variable (ct : Circuit K)

def getY (r c : Nat) : K := ct.matrixY (r * ct.size + c)

def getB (port nr : Nat) : K :=
  ct.matrixB ((nr - ct.vsource) * ct.size + port).toNat

def getC (nr port : Nat) : K :=
  ct.matrixC ((nr - ct.vsource) * ct.size + port).toNat

def getD (r c : Nat) : K :=
  ct.matrixD ((r - ct.vsource) * ct.vsources + c - ct.vsource).toNat

def getI (port : Nat) : K := ct.vectorI port

def getE (nr : Nat) : K := ct.vectorE (nr - ct.vsource).toNat

end Circuit

/-! ## Numbering -/

variable (subnet : List (Circuit K))

/-- The names of the nodes; a new one goes to the front. -/
def uniqueNames : List String :=
  subnet.foldl (fun root c => (range c.size).foldl
    (fun root i => if root.contains (c.node i) then root else c.node i :: root) root) []

/-- The nodes with a name, in the second loop of the node list. -/
def terminals (name : String) : List (Fin subnet.length × Nat) :=
  (finRange subnet.length).flatMap fun k =>
    ((range (subnet.get k).size).filter fun i => (subnet.get k).node i == name).map fun i => (k, i)

/-- The nodes with number 1, 2 and so on. -/
def narray : List String :=
  (uniqueNames subnet).filter fun name => name != "gnd"

/-- The circuit nodes at row `nr`, that is at the node with number `nr + 1`. -/
def getNode (nr : Nat) : List (Fin subnet.length × Nat) :=
  terminals subnet ((narray subnet).getD nr "")

def countNodes : Nat := (uniqueNames subnet).length - 1

/-- Consecutive numbers for the voltage sources of each circuit; the total is
returned beside the circuits. -/
def assignVoltageSources : Nat → List (Circuit K) → List (Circuit K) × Nat
  | nSources, [] => ([], nSources)
  | nSources, c :: cs =>
    if 0 < c.vsources then
      let (cs, total) := assignVoltageSources (nSources + c.vsources) cs
      ({ c with vsource := nSources } :: cs, total)
    else
      let (cs, total) := assignVoltageSources nSources cs
      (c :: cs, total)

/-- The first circuit in whose range of voltage sources `n` is. -/
def findVoltageSource (n : Nat) : Option (Fin subnet.length) :=
  (finRange subnet.length).find? fun k =>
    decide ((subnet.get k).vsource ≤ n ∧
      (n : Int) ≤ (subnet.get k).vsource + (subnet.get k).vsources - 1)

end Accessors

/-! ## The four parts of the matrix and the two of the right-hand side -/

section Create

variable {K : Type} [AddCommMonoid K] (subnet : List (Circuit K)) (M : Nat)

variable (A : Nat × Nat → K)

/-- The conductances. -/
def createGMatrix : Option (Nat × Nat → K) :=
  let N := countNodes subnet
  fill (product (range N) (range N)) (fun (c, r) => (r, c)) (fun (c, r) =>
    -- sum up the conductance of each connected circuit
    some ((getNode subnet c).foldl (fun g nc => (getNode subnet r).foldl (fun g nr =>
      if nc.1 = nr.1 then g + (subnet.get nc.1).getY nr.2 nc.2 else g) g) 0)) A

def createBMatrix : Option (Nat × Nat → K) :=
  let N := countNodes subnet
  fill (product (range M) (range N)) (fun (c, r) => (r, c + N)) (fun (c, r) =>
    let vs := findVoltageSource subnet c
    some ((getNode subnet r).foldl (fun val t =>
      if some t.1 = vs then val + (subnet.get t.1).getB t.2 c else val) 0)) A

def createCMatrix : Option (Nat × Nat → K) :=
  let N := countNodes subnet
  fill (product (range M) (range N)) (fun (r, c) => (r + N, c)) (fun (r, c) =>
    let vs := findVoltageSource subnet r
    some ((getNode subnet c).foldl (fun val t =>
      if some t.1 = vs then val + (subnet.get t.1).getC r t.2 else val) 0)) A

def createDMatrix : Option (Nat × Nat → K) :=
  let N := countNodes subnet
  fill (product (range M) (range M)) (fun (r, c) => (r + N, c + N)) (fun (r, c) =>
    let vsr := findVoltageSource subnet r
    let vsc := findVoltageSource subnet c
    if vsr = vsc then vsr.map fun k => (subnet.get k).getD r c else some 0) A

/-- The currents. -/
def createIVector (z : Nat → K) : Option (Nat → K) :=
  fill (range (countNodes subnet)) id (fun r =>
    some ((getNode subnet r).foldl (fun val t =>
      if (subnet.get t.1).isISource || (subnet.get t.1).isNonLinear then
        val + (subnet.get t.1).getI t.2
      else val) 0)) z

def createEVector (z : Nat → K) : Option (Nat → K) :=
  fill (range M) (fun r => r + countNodes subnet) (fun r =>
    (findVoltageSource subnet r).map fun k => (subnet.get k).getE r) z

/-- The A matrix and the z vector, written over what is in them. -/
def createMatrix (z : Nat → K) : Option ((Nat × Nat → K) × (Nat → K)) := do
  let A ← createGMatrix subnet A
  let A ← createBMatrix subnet M A
  let A ← createCMatrix subnet M A
  let A ← createDMatrix subnet M A
  let z ← createIVector subnet z
  let z ← createEVector subnet M z
  return (A, z)

end Create

/-- A net as the solver gets it: some circuit is connected to ground. -/
structure Net (K : Type) [Zero K] where
  circuits : List (Circuit K)
  grounded : ∃ c ∈ circuits, ∃ i < c.size, c.node i = "gnd"

def Net.numbered {K : Type} [Zero K] (net : Net K) : List (Circuit K) :=
  (assignVoltageSources 0 net.circuits).1

def Net.countVoltageSources {K : Type} [Zero K] (net : Net K) : Nat :=
  (assignVoltageSources 0 net.circuits).2

def Net.createMatrix {K : Type} [AddCommMonoid K] (net : Net K) (A : Nat × Nat → K)
    (z : Nat → K) : Option ((Nat × Nat → K) × (Nat → K)) :=
  Mna.createMatrix net.numbered net.countVoltageSources A z

end Qucs.Mna
