/-
# The S-parameter solver's network reduction

`spsolver` keeps a list of circuits, each a scattering matrix with a node name
at every port, and reduces it by joining the two terminals of one internal
node after another. `connectedJoin` merges two circuits, `interconnectJoin`
closes a loop on a single one; `reduce` picks between them, takes the joined
circuits out of the list and puts the result at its head. When only port
nodes are left `saveResults` writes the matrices of the remaining circuits,
indexed by port.

* circuit::getS, getNode(i)->getName: `Circuit.S`, `Circuit.node`
* the loops over j1/i1 with j2/i2: `Circuit.ofPorts` over the ports kept
* spsolver::reduce: `reduce`, the two terminals given

The complex numbers are any field `K` here. The signal port circuits (`Pac`)
take no part in the joins and are not in the list: a port node is one that is
left with a single terminal.
-/
import Qucs.Lib.Numerals

namespace Qucs.Spar

variable {ι K : Type*}

/-! ## Circuits -/

/-- An S-parameter circuit: the number of its ports, the node name of each port
and the entries of its matrix. -/
structure Circuit (K : Type*) where
  size : ℕ
  node : ℕ → String
  S : ℕ → ℕ → K

/-- The port numbers, in the order every loop of the solver visits them. -/
def Circuit.ports (c : Circuit K) : List ℕ := List.range c.size

def Circuit.names (c : Circuit K) : List String := c.ports.map c.node

/-- The circuit filled by a loop over the ports kept, whose running index
(`i2` for rows, `j2` for columns) counts the ports not skipped. Past the last
port the index stands for `outside`, which no loop reaches. -/
def Circuit.ofPorts (outside : ι) (kept : List ι) (node : ι → String) (S : ι → ι → K) :
    Circuit K where
  size := kept.length
  node j2 := node (kept.getD j2 outside)
  S i2 j2 := S (kept.getD i2 outside) (kept.getD j2 outside)

section Joins

variable [Field K] [DecidableEq K]

/-! ## The two joins -/

/-- `TINYS`, the offset used at singularities: `NR_TINY * 1.235`. -/
def tinys : K := 1235 / 10 ^ 15

/-- `tiny1`: keeps two fully reflective ports from dividing by zero. -/
def tiny (d : K) : K := if d = 0 then 1 - tinys else 1

/-- The denominator `interconnectJoin` tests before it computes an entry. -/
def interconnectDenominator (s : Circuit K) (k l : ℕ) : K :=
  (1 - s.S k l) * (1 - s.S l k) - s.S k k * s.S l l

/-- The entry `S'ij` of `interconnectJoin`. -/
def interconnectEntry (s : Circuit K) (k l i1 j1 : ℕ) : K :=
  let tiny1 := tiny (interconnectDenominator s k l)
  let tiny2 := tiny1 * tiny1
  let tiny3 := tiny1 * tiny2
  let d := (1 - s.S k l * tiny1) * (1 - s.S l k * tiny1) - s.S k k * s.S l l * tiny2
  s.S i1 j1 +
    (s.S k j1 * s.S i1 l * (1 - s.S l k) * tiny3 +
      s.S l j1 * s.S i1 k * (1 - s.S k l) * tiny3 +
      s.S k j1 * s.S l l * s.S i1 k * tiny3 +
      s.S l j1 * s.S k k * s.S i1 l * tiny3) / d

/-- Joins the ports `k` and `l` of a single circuit. -/
def interconnectJoin (s : Circuit K) (k l : ℕ) : Circuit K :=
  Circuit.ofPorts k (s.ports.filter fun j1 => ¬(j1 = k ∨ j1 = l)) s.node (interconnectEntry s k l)

/-- The denominator `connectedJoin` tests before it computes an entry. -/
def connectedDenominator (s t : Circuit K) (k l : ℕ) : K :=
  1 - s.S k k * t.S l l

/-- The entries of `connectedJoin`: inside `S`, across the two circuits and
inside `T`. -/
def connectedEntry (s t : Circuit K) (k l : ℕ) (i1 j1 : ℕ ⊕ ℕ) : K :=
  let tiny1 := tiny (connectedDenominator s t k l)
  let tiny2 := tiny1 * tiny1
  let tiny3 := tiny1 * tiny2
  let d := 1 - s.S k k * t.S l l * tiny2
  match i1, j1 with
  | .inl i1, .inl j1 => s.S i1 j1 + s.S k j1 * t.S l l * s.S i1 k * tiny3 / d
  | .inr i1, .inl j1 => s.S k j1 * t.S i1 l * tiny2 / d
  | .inl i1, .inr j1 => t.S l j1 * s.S i1 k * tiny2 / d
  | .inr i1, .inr j1 => t.S i1 j1 + t.S l j1 * s.S k k * t.S i1 l * tiny3 / d

/-- Joins the port `k` of `s` with the port `l` of `t`: the other ports of `s`
come first, then those of `t`. -/
def connectedJoin (s t : Circuit K) (k l : ℕ) : Circuit K :=
  Circuit.ofPorts (.inl k)
    ((s.ports.filter fun j1 => ¬j1 = k).map Sum.inl ++
      (t.ports.filter fun j1 => ¬j1 = l).map Sum.inr)
    (Sum.elim s.node t.node) (connectedEntry s t k l)

/-! ## The reduction -/

/-- A terminal, as the node list holds it: a circuit of the net and one of its
ports. -/
structure Terminal where
  circuit : ℕ
  port : ℕ
  deriving DecidableEq, Repr

variable (net : List (Circuit K))

/-- The node name at a terminal, if the net has that terminal. -/
def nodeName (t : Terminal) : Option String :=
  match net[t.circuit]? with
  | some c => if t.port < c.size then some (c.node t.port) else none
  | none => none

/-- Joins two terminals: the circuits joined are removed from the net, the
result is inserted at its head. -/
def reduce (n1 n2 : Terminal) : Option (List (Circuit K)) :=
  match net[n1.circuit]?, net[n2.circuit]? with
  | some cand1, some cand2 =>
    if n1.circuit ≠ n2.circuit then
      some (connectedJoin cand1 cand2 n1.port n2.port ::
        (net.eraseIdx (max n1.circuit n2.circuit)).eraseIdx (min n1.circuit n2.circuit))
    else
      some (interconnectJoin cand1 n1.port n2.port :: net.eraseIdx n1.circuit)
  | _, _ => none

/-- The denominator that `reduce` meets at the two terminals. -/
def reduceDenominator (n1 n2 : Terminal) : Option K :=
  match net[n1.circuit]?, net[n2.circuit]? with
  | some cand1, some cand2 =>
    if n1.circuit ≠ n2.circuit then some (connectedDenominator cand1 cand2 n1.port n2.port)
    else some (interconnectDenominator cand1 n1.port n2.port)
  | _, _ => none

/-- What is written for a reduced net: the entry `S[i,j]` of every circuit that
is left, under the nodes of its ports `i` and `j`. -/
def saveResults : List (String × String × K) :=
  net.flatMap fun c =>
    c.ports.flatMap fun i => c.ports.map fun j => (c.node i, c.node j, c.S i j)

end Joins

end Qucs.Spar
