/-
# When flat names clash

The expansion names a local node, or an element, of an instance by joining the
type, the instances on the way down and the local name with dots. A clash
between two such names, or with a name of the root, silently ties two nets.

* SIMPLEID, POSTID, ID, NODE, FILE (`scan_netlist.lpp`): `simpleId`, `postId`,
  `isId`, `isNode`, `isFile`
* checker_subcircuit_node/_instance: `flat`, by `subcircuitNode`

The lexer admits dots inside identifiers: `ID` is a simple identifier with any
number of parts behind dots, and the rule is open to nodes although `NODE` has
no dot. Identifiers without dots never clash (`eq_of_pieces_eq`). Where there is a
dot in one of them, two names clash iff the pieces between all their dots are the
same (`distinct_iff_separated`).
-/
import Qucs.Hierarchy.FlatNames

namespace Qucs.Hierarchy

open List

open Lib.Dotted (NoDot dotted pieces dotted_eq_iff dotted_injective)

/-! ## Identifiers of the netlist lexer -/

def idStart (c : Char) : Bool := c.isAlpha || c == '_'

def idChar (c : Char) : Bool := c.isAlphanum || c == '_'

/-- `[a-zA-Z_][a-zA-Z0-9_]*`. -/
def simpleId : List Char → Bool
  | [] => false
  | c :: cs => idStart c && cs.all idChar

/-- What stands behind a dot, `[a-zA-Z0-9_]+`. -/
def postId (cs : List Char) : Bool := !cs.isEmpty && cs.all idChar

def isId (s : String) : Bool :=
  match s.toList.splitOn '.' with
  | [] => false
  | cs :: post => simpleId cs && post.all postId

def isNode (s : String) : Bool :=
  simpleId s.toList || (s.toList.getLast? == some '!' && simpleId s.toList.dropLast)

/-- The text of a file reference, without its braces. -/
def isFile (s : String) : Bool :=
  !s.toList.isEmpty && s.toList.all fun c => !(c == '\t' || c == '\n' || c == '\r' || c == '}')

/-- The three rules that yield the token `Identifier`. -/
def isIdentifier (s : String) : Bool := isId s || isNode s || isFile s

variable (net : Netlist)

def Netlist.lexed : Bool :=
  (net.subcircuits.all fun s => isIdentifier s.instanceName && s.nodes.all isIdentifier) &&
    net.lists.all fun ds => ds.all fun d =>
      isIdentifier d.type && isIdentifier d.instanceName && d.nodes.all isIdentifier

/-! ## Flat names and clashes -/

/-- The flat name of a local name in a scope below the root. -/
def flat (f : Frame) (c : Scope) (x : String) : String :=
  subcircuitNode f.type.instanceName (instanceList (path c)) f.inst.instanceName x

def chain (f : Frame) (c : Scope) (x : String) : List String :=
  f.type.instanceName :: (path (f :: c) ++ [x])

theorem toList_flat (f : Frame) (c : Scope) (x : String) :
    (flat f c x).toList = dotted (chain f c x) := by
  rw [flat, toList_subcircuitNode, chain, path_cons, append_assoc]
  rfl

/-- Nodes and instances have names of their own. -/
inductive Kind where
  | node
  | inst

/-- The local names that get a flat name: nodes that are neither formals nor
global, and leaf components. -/
def Local : Kind → Frame → List Definition → String → Prop
  | .node, f, ds, x => (∃ e ∈ ds, x ∈ e.nodes) ∧ xlat f.type f.inst x = none ∧ isGlobal x = false
  | .inst, _, ds, x => ∃ e ∈ ds, e.isSub = false ∧ e.instanceName = x

def Netlist.rootNames : Kind → List String
  | .node => net.root.flatMap Definition.nodes
  | .inst => net.root.map Definition.instanceName

/-- What holds of two different pairs of instance path and local name, and of one of
them and a name of the root. -/
structure Netlist.Apart (net : Netlist)
    (names : Frame → Scope → String → Frame → Scope → String → Prop)
    (rootName : Frame → Scope → String → String → Prop) : Prop where
  inner : ∀ k f c ds x f' c' ds' x', InScope net (f :: c) ds → Local k f ds x →
    InScope net (f' :: c') ds' → Local k f' ds' x' →
    (path (f :: c), x) ≠ (path (f' :: c'), x') → names f c x f' c' x'
  root : ∀ k f c ds x, InScope net (f :: c) ds → Local k f ds x →
    ∀ r ∈ net.rootNames k, rootName f c x r

def Netlist.Distinct : Prop :=
  net.Apart (fun f c x f' c' x' => flat f c x ≠ flat f' c' x') fun f c x r => flat f c x ≠ r

/-- If one of their identifiers has a dot, two names have different pieces between
their dots. -/
def SplitApart (l m : List String) : Prop := (∃ s ∈ l ++ m, ¬NoDot s) → pieces l ≠ pieces m

/-- Names with a dot in an identifier are split apart. -/
def Netlist.Separated : Prop :=
  net.Apart (fun f c x f' c' x' => SplitApart (chain f c x) (chain f' c' x'))
    fun f c x r => SplitApart (chain f c x) [r]

theorem chain_ne_nil (f : Frame) (c : Scope) (x : String) : chain f c x ≠ [] := by simp [chain]

theorem flat_eq_iff (f f' : Frame) (c c' : Scope) (x x' : String) :
    flat f c x = flat f' c' x' ↔ pieces (chain f c x) = pieces (chain f' c' x') := by
  rw [← dotted_eq_iff (chain_ne_nil f c x) (chain_ne_nil f' c' x'), ← toList_flat, ← toList_flat,
    String.toList_inj]

theorem flat_eq_root_iff (f : Frame) (c : Scope) (x r : String) :
    flat f c x = r ↔ pieces (chain f c x) = pieces [r] := by
  rw [← dotted_eq_iff (chain_ne_nil f c x) (cons_ne_nil r []), ← toList_flat, ← String.toList_inj]
  simp [dotted, intercalate]

/-- Identifiers without dots are the pieces themselves. -/
theorem eq_of_pieces_eq {l m : List String} (hl : l ≠ []) (hm : m ≠ [])
    (hsplit : SplitApart l m) (e : pieces l = pieces m) : l = m := by
  have hdot : ∀ s ∈ l ++ m, NoDot s := fun s hs => by_contra fun h => hsplit ⟨s, hs, h⟩ e
  exact dotted_injective (fun s hs => hdot s (mem_append_left m hs))
    (fun s hs => hdot s (mem_append_right l hs)) hl hm ((dotted_eq_iff hl hm).mpr e)

/-- **Flat names collide iff there is a dot in their identifiers and the pieces are the
same.** -/
theorem distinct_iff_separated : net.Distinct ↔ net.Separated := by
  constructor
  · intro h
    constructor
    case inner =>
      intro k f c ds x f' c' ds' x' hc hx hc' hx' hne _ e
      exact h.inner k f c ds x f' c' ds' x' hc hx hc' hx' hne ((flat_eq_iff ..).mpr e)
    case root =>
      intro k f c ds x hc hx r hr _ e
      exact h.root k f c ds x hc hx r hr ((flat_eq_root_iff ..).mpr e)
  · intro h
    constructor
    case inner =>
      intro k f c ds x f' c' ds' x' hc hx hc' hx' hne e
      have hchain := eq_of_pieces_eq (chain_ne_nil f c x) (chain_ne_nil f' c' x')
        (h.inner k f c ds x f' c' ds' x' hc hx hc' hx' hne) ((flat_eq_iff ..).mp e)
      have ends := (cons.inj hchain).2
      exact hne (Prod.ext (append_inj_left' ends rfl)
        (singleton_inj.mp (append_inj_right' ends rfl)))
    case root =>
      intro k f c ds x hc hx r hr e
      have hchain := eq_of_pieces_eq (chain_ne_nil f c x) (cons_ne_nil r [])
        (h.root k f c ds x hc hx r hr) ((flat_eq_root_iff ..).mp e)
      simp [chain] at hchain

/-- A root node may carry the dotted name of an internal node: `n` of the
instance `X1` of `T` is `T.X1.n` in the flat netlist. -/
def dottedNode : Netlist where
  root := [subInstance "X1" ["in"] "T", component "R" "R2" ["in", "T.X1.n"]]
  subcircuits := [⟨"T", ["a"], [component "R" "R1" ["a", "n"]]⟩]

theorem dottedNode_clash : dottedNode.lexed ∧ ¬dottedNode.Distinct ∧
    expandSubcircuits dottedNode 1 = some
      [⟨"R", "T.X1.R1", [⟨some "in", 1⟩, ⟨some "T.X1.n", 0⟩]⟩,
        ⟨"R", "R2", [⟨some "in", 0⟩, ⟨some "T.X1.n", 0⟩]⟩] := by
  refine ⟨by decide, ?_, by decide⟩
  intro h
  have enter : InScope dottedNode
      [⟨⟨"T", ["a"], [component "R" "R1" ["a", "n"]]⟩, subInstance "X1" ["in"] "T"⟩]
      [component "R" "R1" ["a", "n"]] :=
    .enter .root mem_cons_self rfl rfl
  exact h.root .node _ _ _ "n" enter
    ⟨⟨_, mem_cons_self, by simp [component]⟩, by decide, by decide⟩ "T.X1.n" (by decide) rfl

end Qucs.Hierarchy
