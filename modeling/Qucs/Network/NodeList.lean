/-
# The sorted list of nodes

`nodelist.cpp`, as far as the S-parameter solver uses it. Every
name of the net has one entry with the nodes that carry it. The solver joins at
the first entry, so the list is kept sorted by the size of the circuit a join
would give; entries with a node of a port have no such size and stay at the end.
`NodeList.insertEntry` is `nodelist::insert (nodelist_t *)`.

An entry is a heap object that is changed in place; it is found by its name, and
there is one entry to a name. The flag `internal` and the numbers of the nodes
are left out, the solver does not read them.

`Lists` says what the list knows of a set of nodes; adding and removing one node
of a circuit that is no port keeps it (`Lists.removeNode`, `Lists.insertNode`).
-/
import Qucs.Network.Net
import Qucs.Lib.Fold

namespace Qucs.Network

open Net List

/-! ## Entries -/

/-- A name, and the nodes that have it. -/
structure Entry where
  name : String
  nodes : List Terminal
  deriving DecidableEq, Repr

structure NodeList where
  root : List Entry
  sorting : Bool

section Sorting

variable (net : Net)

/-- The number of nodes a join at the entry would yield, -1 at a port. The
source reads the first node without a check; an entry has one. -/
def sortfunc (e : Entry) : ℤ :=
  match e.nodes with
  | [] => -1
  | [n] => if (net.circuit n.circuit).port ≠ 0 then -1 else (net.circuit n.circuit).size
  | n :: m :: _ =>
    if (net.circuit n.circuit).port ≠ 0 ∨ (net.circuit m.circuit).port ≠ 0 then -1
    else if n.circuit = m.circuit then ((net.circuit n.circuit).size : ℤ) - 2
    else ((net.circuit n.circuit).size : ℤ) + (((net.circuit m.circuit).size : ℤ) - 2)

/-- Whether `e` is to be inserted before `e'`. -/
def insfunc (e e' : Entry) : Bool :=
  0 ≤ sortfunc net e ∧ (sortfunc net e ≤ sortfunc net e' ∨ sortfunc net e' < 0)

def insertSorted (e : Entry) : List Entry → List Entry
  | [] => [e]
  | e' :: root => if insfunc net e e' then e :: e' :: root else e' :: insertSorted e root

end Sorting

def setNodes (e : Entry) : List Entry → List Entry
  | [] => []
  | e' :: root => if e'.name = e.name then e :: root else e' :: setNodes e root

namespace NodeList

variable (net : Net) (list : NodeList)

def getNode (x : String) : Option Entry := list.root.find? (·.name = x)

def insertEntry (e : Entry) : NodeList :=
  if list.root = [] then { list with root := [e] }
  else if list.sorting then { list with root := insertSorted net e list.root }
  else { list with root := e :: list.root }

/-- An entry after a change: rearranged if the list is sorted. -/
def rearrange (e : Entry) : NodeList :=
  if list.sorting ∧ 0 < sortfunc net e then
    ({ list with root := list.root.eraseP (·.name = e.name) } : NodeList).insertEntry net e
  else { list with root := setNodes e list.root }

/-! ## Circuits -/

def removeNode (n : Terminal) : NodeList :=
  match list.getNode (net.name n) with
  | none => list
  | some e =>
    let e := { e with nodes := e.nodes.filter (· ≠ n) }
    if e.nodes = [] then { list with root := list.root.eraseP (·.name = e.name) }
    else list.rearrange net e

/-- The nodes of a circuit are taken out. -/
def remove (c : Id) : NodeList := (net.terminalsOf c).foldl (removeNode net) list

def insertNode (n : Terminal) : NodeList :=
  match list.getNode (net.name n) with
  | none =>
    let e : Entry := ⟨net.name n, [n]⟩
    if list.sorting then
      if (net.circuit n.circuit).port ≠ 0 then { list with root := list.root ++ [e] }
      else list.insertEntry net e
    else { list with root := e :: list.root }
  | some e => list.rearrange net { e with nodes := e.nodes ++ [n] }

/-- The nodes of a circuit are put in. -/
def insert (c : Id) : NodeList := (net.terminalsOf c).foldl (insertNode net) list

/-! ## The whole list -/

/-- The first loop of the constructor: the unique names. -/
def uniqueNames (names : List String) (n : Terminal) : List String :=
  if net.name n ∈ names then names else net.name n :: names

/-- The list of a whole net. -/
def create : NodeList where
  root := (net.terminals.foldl (uniqueNames net) []).map fun x =>
    ⟨x, net.terminals.filter fun n => x = net.name n⟩
  sorting := false

/-- The inner loop of `sort`: the candidate and `MaxPorts`. -/
def lastOrder : List Entry → Option Entry → ℤ → Option Entry
  | [], cand, _ => cand
  | e :: root, cand, maxPorts =>
    let ports := sortfunc net e
    if ports = -1 then some e
    else if ports > maxPorts ∨ maxPorts < 0 then lastOrder root (some e) ports
    else lastOrder root cand maxPorts

/-- The outer loop of `sort`; it runs once for every entry, so there always is
a candidate. -/
def sortLoop : ℕ → List Entry → List Entry → List Entry
  | 0, _, sorted => sorted
  | len + 1, root, sorted =>
    match lastOrder net root none (-1) with
    | none => sorted
    | some cand => sortLoop len (root.eraseP (·.name = cand.name)) (cand :: sorted)

/-- By insertion, and sorted from now on. -/
def sort : NodeList := ⟨sortLoop net list.root.length list.root [], true⟩

/-- The first two nodes of the list, or a failed assertion. -/
def sortedNodes : Option (Terminal × Terminal) :=
  match list.root with
  | ⟨_, [n, m]⟩ :: _ => some (n, m)
  | _ => none

end NodeList

/-! ## What the list knows -/

def OnPort (net : Net) (e : Entry) : Prop := ∃ n ∈ e.nodes, (net.circuit n.circuit).port ≠ 0

structure Holds (net : Net) (T : Terminal → Prop) (root : List Entry) : Prop where
  nodup : (root.map Entry.name).Nodup
  entry : ∀ e ∈ root, e.nodes ≠ [] ∧ e.nodes.Nodup ∧ ∀ t, t ∈ e.nodes ↔ T t ∧ net.name t = e.name
  cover : ∀ t, T t → ∃ e ∈ root, e.name = net.name t

/-- The order looks at the first two nodes only. -/
def SeenOnPort (net : Net) (e : Entry) : Prop :=
  ∃ n ∈ e.nodes.take 2, (net.circuit n.circuit).port ≠ 0

/-- `e` may stand before `e'`: sizes grow, entries without one come last. -/
def Before (net : Net) (e e' : Entry) : Prop :=
  sortfunc net e' < 0 ∨ (0 ≤ sortfunc net e ∧ sortfunc net e ≤ sortfunc net e')

/-- Entries at ports are at the end, and are seen to be at ports. -/
structure Ordered (net : Net) (root : List Entry) : Prop where
  pairwise : root.Pairwise fun e e' => OnPort net e → OnPort net e'
  seen : ∀ e ∈ root, OnPort net e → SeenOnPort net e

structure Lists (net : Net) (T : Terminal → Prop) (list : NodeList) : Prop where
  sorting : list.sorting
  valid : ∀ t, T t → t.index < (net.circuit t.circuit).size
  holds : Holds net T list.root
  ordered : Ordered net list.root

section Holds

variable {net : Net} {T T' : Terminal → Prop} {root root' l r : List Entry} {e e' : Entry}

theorem Holds.perm (h : Holds net T root) (hp : root.Perm root') : Holds net T root' where
  nodup := (hp.map _).nodup_iff.mp h.nodup
  entry := fun e he => h.entry e (hp.mem_iff.mpr he)
  cover := by
    intro t ht
    obtain ⟨e, he, hname⟩ := h.cover t ht
    exact ⟨e, hp.mem_iff.mp he, hname⟩

theorem Holds.of_iff (h : Holds net T root) (hT : ∀ t, T' t ↔ T t) : Holds net T' root := by
  obtain rfl : T' = T := funext fun t => propext (hT t)
  exact h

theorem split_of_nodup (h : (root.map Entry.name).Nodup) (he : e ∈ root) :
    ∃ l r, root = l ++ e :: r ∧ ∀ e' ∈ l, e'.name ≠ e.name := by
  obtain ⟨l, r, rfl⟩ := append_of_mem he
  refine ⟨l, r, rfl, ?_⟩
  intro e' he' heq
  rw [map_append, map_cons] at h
  exact disjoint_of_nodup_append h (mem_map_of_mem he') (heq ▸ mem_cons_self)

theorem Holds.name_ne (h : Holds net T (e :: root)) : ∀ d ∈ root, d.name ≠ e.name :=
  fun _ hd heq => (nodup_cons.mp h.nodup).1 (heq ▸ mem_map_of_mem hd)

theorem Holds.drop (h : Holds net T (e :: root)) :
    Holds net (fun t => T t ∧ net.name t ≠ e.name) root where
  nodup := (nodup_cons.mp h.nodup).2
  entry := by
    intro d hd
    obtain ⟨hne, hnodup, hmem⟩ := h.entry d (mem_cons_of_mem _ hd)
    refine ⟨hne, hnodup, fun t => ?_⟩
    rw [hmem]
    refine and_congr_left fun hx => (and_iff_left ?_).symm
    exact hx ▸ h.name_ne d hd
  cover := by
    rintro t ⟨ht, hx⟩
    obtain ⟨d, hd, hname⟩ := h.cover t ht
    refine ⟨d, (mem_cons.mp hd).resolve_left ?_, hname⟩
    rintro rfl
    exact hx hname.symm

theorem Holds.add (h : Holds net T root) (hnew : ∀ d ∈ root, d.name ≠ e.name) (hne : e.nodes ≠ [])
    (hnodup : e.nodes.Nodup) (hmem : ∀ t, t ∈ e.nodes ↔ T' t ∧ net.name t = e.name)
    (hsame : ∀ t, net.name t ≠ e.name → (T' t ↔ T t)) : Holds net T' (e :: root) where
  nodup := by
    refine nodup_cons.mpr ⟨fun hmem => ?_, h.nodup⟩
    obtain ⟨d, hd, hname⟩ := mem_map.mp hmem
    exact hnew d hd hname
  entry := by
    refine forall_mem_cons.mpr ⟨⟨hne, hnodup, hmem⟩, fun d hd => ?_⟩
    obtain ⟨hdne, hdnodup, hdmem⟩ := h.entry d hd
    refine ⟨hdne, hdnodup, fun t => ?_⟩
    rw [hdmem]
    refine and_congr_left fun ht => (hsame t ?_).symm
    exact ht ▸ hnew d hd
  cover := by
    intro t ht
    by_cases hx : net.name t = e.name
    · exact ⟨e, mem_cons_self, hx.symm⟩
    · obtain ⟨d, hd, hname⟩ := h.cover t ((hsame t hx).mp ht)
      exact ⟨d, mem_cons_of_mem _ hd, hname⟩

theorem getNode_cases (list : NodeList) (x : String) :
    (∃ e ∈ list.root, e.name = x ∧ list.getNode x = some e) ∨
      (list.getNode x = none ∧ ∀ e ∈ list.root, e.name ≠ x) := by
  cases hfind : list.getNode x with
  | none =>
    refine .inr ⟨rfl, fun e he => ?_⟩
    simpa using find?_eq_none.mp hfind e he
  | some e =>
    have hx : e.name = x := by simpa using find?_some hfind
    exact .inl ⟨e, mem_of_find?_eq_some hfind, hx, rfl⟩

end Holds

/-! ## Order -/

section Ordered

variable {net : Net} {T : Terminal → Prop} {root l r : List Entry} {e e' : Entry}

theorem insertSorted_perm (net : Net) (e : Entry) : ∀ root,
    (insertSorted net e root).Perm (e :: root)
  | [] => .refl _
  | e' :: root => by
    rw [insertSorted]
    split
    · exact .refl _
    · exact ((insertSorted_perm net e root).cons e').trans (.swap e e' root)

theorem SeenOnPort.sortfunc (h : SeenOnPort net e) : sortfunc net e = -1 := by
  obtain ⟨x, nodes⟩ := e
  obtain ⟨n, hn, hport⟩ := h
  match nodes with
  | [] => rfl
  | [m] =>
    obtain rfl : n = m := by simpa using hn
    simp [Network.sortfunc, hport]
  | m :: m' :: nodes =>
    obtain rfl | rfl : n = m ∨ n = m' := by simpa using hn
    · simp [Network.sortfunc, hport]
    · simp [Network.sortfunc, hport]

theorem SeenOnPort.onPort (h : SeenOnPort net e) : OnPort net e := by
  obtain ⟨n, hn, hport⟩ := h
  exact ⟨n, mem_of_mem_take hn, hport⟩

/-- An entry that is not seen to be at a port has a size. -/
theorem Holds.sortfunc_nonneg (h : Holds net T root)
    (hT : ∀ t, T t → t.index < (net.circuit t.circuit).size) (he : e ∈ root)
    (hoff : ¬SeenOnPort net e) : 0 ≤ sortfunc net e := by
  obtain ⟨hne, hnodup, hmem⟩ := h.entry e he
  have hvalid := fun t ht => hT t ((hmem t).mp ht).1
  obtain ⟨x, nodes⟩ := e
  have hport := fun t ht => not_not.mp fun h => hoff ⟨t, ht, h⟩
  match nodes with
  | [] => exact absurd rfl hne
  | [n] => simp [sortfunc, hport n mem_cons_self]
  | n :: m :: nodes =>
    have hn := hvalid n mem_cons_self
    have hm := hvalid m (by simp)
    have hnm : n ≠ m := by
      rintro rfl
      simp at hnodup
    simp only [sortfunc, hport n (by simp), hport m (by simp), ne_eq, not_true_eq_false,
      or_self, if_false]
    split
    case isTrue hc =>
      have hindex : n.index ≠ m.index := by
        intro hi
        obtain ⟨c, i⟩ := n
        obtain ⟨d, j⟩ := m
        cases hc
        cases hi
        exact hnm rfl
      rw [← hc] at hm
      omega
    case isFalse => omega

theorem Holds.sortfunc_cases (h : Holds net T root)
    (hT : ∀ t, T t → t.index < (net.circuit t.circuit).size) (he : e ∈ root) :
    sortfunc net e = -1 ∨ 0 ≤ sortfunc net e := by
  by_cases hseen : SeenOnPort net e
  · exact .inl hseen.sortfunc
  · exact .inr (h.sortfunc_nonneg hT he hseen)

theorem Before.trans {e'' : Entry} (h : Before net e e') (h' : Before net e' e'') :
    Before net e e'' := by
  simp only [Before] at *
  omega

/-- Nothing but ports may stand behind a port. -/
theorem Before.onPort (h : Before net e e') (hseen : OnPort net e → SeenOnPort net e)
    (hpos : ¬SeenOnPort net e' → 0 ≤ sortfunc net e') (hon : OnPort net e) : OnPort net e' := by
  have hneg := (hseen hon).sortfunc
  refine not_not.mp fun hoff => ?_
  have := hpos fun hs => hoff hs.onPort
  simp only [Before] at h
  omega

/-- Every entry goes before the ones it is inserted before, and after all others. -/
theorem pairwise_insertSorted {R : Entry → Entry → Prop} (hR : ∀ {a b c}, R a b → R b c → R a c)
    (h : root.Pairwise R) (he : ∀ d ∈ root, if insfunc net e d then R e d else R d e) :
    (insertSorted net e root).Pairwise R := by
  induction root with
  | nil => exact pairwise_singleton _ _
  | cons d root ih =>
    obtain ⟨hd, hroot⟩ := pairwise_cons.mp h
    obtain ⟨hed, hrest⟩ := forall_mem_cons.mp he
    rw [insertSorted]
    split_ifs at hed ⊢
    · exact pairwise_cons.mpr ⟨forall_mem_cons.mpr ⟨hed, fun d' hd' => hR hed (hd d' hd')⟩, h⟩
    · refine pairwise_cons.mpr ⟨fun d' hd' => ?_, ih hroot hrest⟩
      rcases mem_cons.mp ((insertSorted_perm net e root).mem_iff.mp hd') with rfl | hd'
      · exact hed
      · exact hd d' hd'

theorem pairwise_set {R : Entry → Entry → Prop} (h : (l ++ e :: r).Pairwise R)
    (hto : ∀ d, R e d → R e' d) (hfrom : ∀ d, R d e → R d e') : (l ++ e' :: r).Pairwise R := by
  rw [pairwise_append, pairwise_cons] at h ⊢
  obtain ⟨hl, ⟨her, hr⟩, hlr⟩ := h
  refine ⟨hl, ⟨fun d hd => hto d (her d hd), hr⟩, fun d hd => ?_⟩
  exact forall_mem_cons.mpr ⟨hfrom d (hlr d hd e mem_cons_self),
    fun d' hd' => hlr d hd d' (mem_cons_of_mem _ hd')⟩

/-- An entry at no port is inserted before all entries at ports. -/
theorem Ordered.insertSorted (h : Ordered net root) (he : ¬OnPort net e)
    (hpos : 0 ≤ sortfunc net e) : Ordered net (insertSorted net e root) where
  pairwise := by
    refine pairwise_insertSorted (fun h h' hon => h' (h hon)) h.pairwise fun d hd => ?_
    split
    case isTrue => exact fun hon => absurd hon he
    case isFalse hins =>
      intro hon
      have hneg := (h.seen d hd hon).sortfunc
      simp [insfunc, hpos, hneg] at hins
  seen := by
    intro d hd
    rcases mem_cons.mp ((insertSorted_perm net e root).mem_iff.mp hd) with rfl | hd
    · exact fun hon => absurd hon he
    · exact h.seen d hd

theorem Ordered.remove (h : Ordered net (l ++ e :: r)) : Ordered net (l ++ r) where
  pairwise := h.pairwise.sublist (List.Sublist.append_left (sublist_cons_self e r) l)
  seen := fun d hd => h.seen d ((List.Sublist.append_left (sublist_cons_self e r) l).subset hd)

/-- A change in place keeps the order as long as the entry stays at a port, or
at none. -/
theorem Ordered.set (h : Ordered net (l ++ e :: r)) (hport : OnPort net e' ↔ OnPort net e)
    (hseen : OnPort net e' → SeenOnPort net e') : Ordered net (l ++ e' :: r) where
  pairwise := pairwise_set h.pairwise (fun _ hd hon => hd (hport.mp hon))
    fun _ hd hon => hport.mpr (hd hon)
  seen := by
    intro d hd
    rcases mem_cons.mp (perm_middle.mem_iff.mp hd) with rfl | hd
    · exact hseen
    · exact h.seen d (perm_middle.mem_iff.mpr (mem_cons_of_mem _ hd))

end Ordered

/-! ## One node more or less -/

section Lists

variable {net : Net} {T T' : Terminal → Prop} {list : NodeList} {l r : List Entry} {e e' : Entry}

theorem eraseP_split (hl : ∀ d ∈ l, d.name ≠ e.name) :
    (l ++ e :: r).eraseP (·.name = e.name) = l ++ r := by
  rw [eraseP_append_right _ fun d hd => by simpa using hl d hd,
    eraseP_cons_of_pos (by simp)]

theorem setNodes_split (hname : e'.name = e.name) : ∀ {l : List Entry},
    (∀ d ∈ l, d.name ≠ e.name) → setNodes e' (l ++ e :: r) = l ++ e' :: r
  | [], _ => by rw [nil_append, setNodes, if_pos hname.symm, nil_append]
  | d :: l, hl => by
    rw [cons_append, setNodes, if_neg (by rw [hname]; exact hl d mem_cons_self),
      setNodes_split hname fun d hd => hl d (mem_cons_of_mem _ hd), cons_append]

theorem insertEntry_root (hsorting : list.sorting) :
    (list.insertEntry net e).root = insertSorted net e list.root := by
  rw [NodeList.insertEntry]
  split
  case isTrue hnil => rw [hnil, insertSorted]
  case isFalse => rfl

theorem insertEntry_sorting : (list.insertEntry net e).sorting = list.sorting := by
  rw [NodeList.insertEntry]
  split_ifs <;> rfl

/-- What `rearrange` does: an entry that has a size is inserted again, any other
stays where it is. -/
theorem rearrange_cases (net : Net) (hnames : (list.root.map Entry.name).Nodup) (he : e ∈ list.root)
    (nodes : List Terminal) : ∃ l r, list.root = l ++ e :: r ∧
      (list.rearrange net { e with nodes := nodes }).sorting = list.sorting ∧
      ({ e with nodes := nodes } :: (l ++ r)).Perm
        (list.rearrange net { e with nodes := nodes }).root ∧
      ((list.sorting ∧ 0 < sortfunc net { e with nodes := nodes } ∧
          (list.rearrange net { e with nodes := nodes }).root =
            insertSorted net { e with nodes := nodes } (l ++ r)) ∨
        (¬(list.sorting ∧ 0 < sortfunc net { e with nodes := nodes }) ∧
          (list.rearrange net { e with nodes := nodes }).root =
            l ++ { e with nodes := nodes } :: r)) := by
  obtain ⟨l, r, hroot, hl⟩ := split_of_nodup hnames he
  refine ⟨l, r, hroot, ?_⟩
  rw [NodeList.rearrange]
  split
  case isTrue hpos =>
    have herase : (l ++ e :: r).eraseP (·.name = e.name) = l ++ r := eraseP_split hl
    rw [hroot, herase]
    have hins : (NodeList.insertEntry net ⟨l ++ r, list.sorting⟩ { e with nodes := nodes }).root =
        insertSorted net { e with nodes := nodes } (l ++ r) := insertEntry_root hpos.1
    exact ⟨insertEntry_sorting, hins ▸ (insertSorted_perm net _ _).symm,
      .inl ⟨hpos.1, hpos.2, hins⟩⟩
  case isFalse hneg =>
    have hset : setNodes { e with nodes := nodes } (l ++ e :: r) =
        l ++ { e with nodes := nodes } :: r :=
      setNodes_split (show Entry.name { e with nodes := nodes } = e.name from rfl) hl
    rw [hroot, hset]
    exact ⟨rfl, perm_middle.symm, .inr ⟨hneg, rfl⟩⟩

variable {nodes : List Terminal}

theorem Holds.rearrange (h : Holds net T list.root) (he : e ∈ list.root) (hne : nodes ≠ [])
    (hnodup : nodes.Nodup) (hmem : ∀ t, t ∈ nodes ↔ T' t ∧ net.name t = e.name)
    (hsame : ∀ t, net.name t ≠ e.name → (T' t ↔ T t)) :
    Holds net T' (list.rearrange net { e with nodes := nodes }).root := by
  obtain ⟨l, r, hroot, -, hperm, -⟩ := rearrange_cases net h.nodup he nodes
  have hbase : Holds net T (e :: (l ++ r)) := h.perm (hroot ▸ perm_middle)
  have hadd : Holds net T' ({ e with nodes := nodes } :: (l ++ r)) :=
    hbase.drop.add hbase.name_ne hne hnodup hmem fun t ht =>
      (hsame t ht).trans (and_iff_left ht).symm
  exact hadd.perm hperm

/-- **A changed entry**: it goes where it belongs. Nodes of ports neither come
nor go, and stay among the first two. -/
theorem Lists.rearrange (h : Lists net T list) (he : e ∈ list.root)
    (hholds : Holds net T' (list.rearrange net { e with nodes := nodes }).root)
    (hvalid : ∀ t, T' t → t.index < (net.circuit t.circuit).size)
    (hports : ∀ m, (net.circuit m.circuit).port ≠ 0 →
      (m ∈ nodes ↔ m ∈ e.nodes) ∧ (m ∈ e.nodes.take 2 → m ∈ nodes.take 2)) :
    Lists net T' (list.rearrange net { e with nodes := nodes }) := by
  have hon := exists_congr fun m => and_congr_left fun hm => (hports m hm).1
  have hseen : OnPort net { e with nodes := nodes } → SeenOnPort net { e with nodes := nodes } := by
    intro hon'
    obtain ⟨m, hm, hmport⟩ := h.ordered.seen e he (hon.mp hon')
    exact ⟨m, (hports m hmport).2 hm, hmport⟩
  obtain ⟨l, r, hroot, hsorting, -, hcases⟩ := rearrange_cases net h.holds.nodup he nodes
  have ho := h.ordered
  rw [hroot] at ho
  refine ⟨hsorting.trans h.sorting, hvalid, hholds, ?_⟩
  rcases hcases with ⟨-, hpos, heq⟩ | ⟨-, heq⟩
  · have hoff : ¬OnPort net { e with nodes := nodes } := by
      intro hon'
      rw [(hseen hon').sortfunc] at hpos
      exact absurd hpos (by decide)
    rw [heq]
    exact ho.remove.insertSorted hoff hpos.le
  · rw [heq]
    exact ho.set hon hseen

theorem mem_take_two_filter {n m : Terminal} (hm : m ≠ n) : ∀ {nodes : List Terminal},
    m ∈ nodes.take 2 → m ∈ (nodes.filter (· ≠ n)).take 2
  | [], h => h
  | [a], h => by
    obtain rfl : m = a := by simpa using h
    simp [hm]
  | a :: b :: nodes, h => by
    by_cases ha : a = n
    · obtain rfl : m = b := by simpa [ha, hm] using h
      rw [filter_cons_of_neg (by simp [ha]), filter_cons_of_pos (by simp [hm])]
      simp
    · rw [filter_cons_of_pos (by simp [ha])]
      obtain rfl | rfl : m = a ∨ m = b := by simpa using h
      · simp
      · rw [filter_cons_of_pos (by simp [hm])]
        simp

variable {n : Terminal}

theorem insertNode_cases (net : Net) (list : NodeList) (n : Terminal) :
    (∃ e ∈ list.root, e.name = net.name n ∧
      list.insertNode net n = list.rearrange net { e with nodes := e.nodes ++ [n] }) ∨
    ((∀ e ∈ list.root, e.name ≠ net.name n) ∧
      (list.insertNode net n).sorting = list.sorting ∧
      (⟨net.name n, [n]⟩ :: list.root).Perm (list.insertNode net n).root ∧
      (list.insertNode net n).root =
        if list.sorting then
          if (net.circuit n.circuit).port ≠ 0 then list.root ++ [⟨net.name n, [n]⟩]
          else insertSorted net ⟨net.name n, [n]⟩ list.root
        else ⟨net.name n, [n]⟩ :: list.root) := by
  rw [NodeList.insertNode]
  rcases getNode_cases list (net.name n) with ⟨e, he, hname, hfind⟩ | ⟨hfind, hnone⟩
  · rw [hfind]
    exact .inl ⟨e, he, hname, rfl⟩
  · refine .inr ⟨hnone, ?_⟩
    rw [hfind]
    split_ifs with hsorting hport
    · exact ⟨rfl, (perm_append_singleton _ _).symm, rfl⟩
    · rw [insertEntry_root hsorting]
      exact ⟨insertEntry_sorting, (insertSorted_perm net _ _).symm, rfl⟩
    · exact ⟨rfl, .refl _, rfl⟩

theorem or_eq_iff_of_ne (hname : e.name = net.name n) (t : Terminal) (ht : net.name t ≠ e.name) :
    T t ∨ t = n ↔ T t := by
  refine or_iff_left ?_
  rintro rfl
  exact ht hname.symm

section Root

variable (h : Holds net T list.root)
include h

theorem removeNode_cases (hn : T n) :
    ∃ e ∈ list.root, e.name = net.name n ∧
      ((e.nodes.filter (· ≠ n) = [] ∧ ∃ l r, list.root = l ++ e :: r ∧
          list.removeNode net n = { list with root := l ++ r }) ∨
        (e.nodes.filter (· ≠ n) ≠ [] ∧
          list.removeNode net n =
            list.rearrange net { e with nodes := e.nodes.filter (· ≠ n) })) := by
  rcases getNode_cases list (net.name n) with ⟨e, he, hname, hfind⟩ | ⟨-, hnone⟩
  swap
  · obtain ⟨e, he, hname⟩ := h.cover n hn
    exact absurd hname (hnone e he)
  refine ⟨e, he, hname, ?_⟩
  rw [NodeList.removeNode, hfind]
  dsimp only
  split
  case isTrue hnil =>
    obtain ⟨l, r, hroot, hl⟩ := split_of_nodup h.nodup he
    have herase : (l ++ e :: r).eraseP (·.name = e.name) = l ++ r := eraseP_split hl
    rw [hroot, herase]
    exact .inl ⟨hnil, l, r, rfl, rfl⟩
  case isFalse hne => exact .inr ⟨hne, rfl⟩

theorem Holds.mem_filter (he : e ∈ list.root) (n t : Terminal) :
    t ∈ e.nodes.filter (· ≠ n) ↔ (T t ∧ t ≠ n) ∧ net.name t = e.name := by
  rw [List.mem_filter, (h.entry e he).2.2, decide_eq_true_eq]
  exact and_right_comm

theorem Holds.removeNode (hn : T n) :
    Holds net (fun t => T t ∧ t ≠ n) (list.removeNode net n).root := by
  obtain ⟨e, he, hname, ⟨hnil, l, r, hroot, heq⟩ | ⟨hne, heq⟩⟩ := removeNode_cases h hn
  · have hbase : Holds net T (e :: (l ++ r)) := h.perm (hroot ▸ perm_middle)
    rw [heq]
    refine hbase.drop.of_iff fun t => and_congr_right fun ht => not_congr ⟨?_, fun hx => ?_⟩
    · rintro rfl
      exact hname.symm
    · by_contra hne
      have := (h.mem_filter he n t).mpr ⟨⟨ht, hne⟩, hx⟩
      rw [hnil] at this
      exact not_mem_nil this
  · rw [heq]
    refine h.rearrange he hne ((h.entry e he).2.1.filter _) (h.mem_filter he n) fun t ht => ?_
    refine and_iff_left ?_
    rintro rfl
    exact ht hname.symm

theorem Holds.mem_append (he : e ∈ list.root)
    (hname : e.name = net.name n) (t : Terminal) :
    t ∈ e.nodes ++ [n] ↔ (T t ∨ t = n) ∧ net.name t = e.name := by
  rw [List.mem_append, List.mem_singleton, (h.entry e he).2.2, or_and_right]
  refine or_congr_right ⟨?_, And.left⟩
  rintro rfl
  exact ⟨rfl, hname.symm⟩

theorem Holds.nodup_append (he : e ∈ list.root)
    (hn : ¬T n) : (e.nodes ++ [n]).Nodup := by
  obtain ⟨-, hnodup, hmem⟩ := h.entry e he
  refine hnodup.append (nodup_singleton n) ?_
  rw [disjoint_singleton]
  exact fun hmem' => hn ((hmem n).mp hmem').1

theorem Holds.newEntry (hnone : ∀ e ∈ list.root, e.name ≠ net.name n) :
    Holds net (fun t => T t ∨ t = n) (⟨net.name n, [n]⟩ :: list.root) := by
  refine h.add hnone (by simp) (by simp) (fun t => ?_) (or_eq_iff_of_ne rfl)
  rw [mem_singleton]
  constructor
  · rintro rfl
    exact ⟨.inr rfl, rfl⟩
  · rintro ⟨ht | ht, hx⟩
    · obtain ⟨d, hd, hname⟩ := h.cover t ht
      exact absurd (hname.trans hx) (hnone d hd)
    · exact ht

theorem Holds.insertNode (hn : ¬T n) :
    Holds net (fun t => T t ∨ t = n) (list.insertNode net n).root := by
  rcases insertNode_cases net list n with ⟨e, he, hname, heq⟩ | ⟨hnone, -, hperm, -⟩
  · rw [heq]
    exact h.rearrange he (by simp) (h.nodup_append he hn) (h.mem_append he hname)
      (or_eq_iff_of_ne hname)
  · exact (h.newEntry hnone).perm hperm

end Root

/-- A node whose turn it is has not been met before. -/
theorem not_mem_done {nodes done rest : List Terminal} (hnodup : nodes.Nodup)
    (h : nodes = done ++ n :: rest) : n ∉ done := by
  rw [h] at hnodup
  exact fun hn => disjoint_of_nodup_append hnodup hn mem_cons_self

variable (h : Lists net T list)
include h

/-- **Removing** a node of a circuit that is no port. -/
theorem Lists.removeNode (hn : T n)
    (hport : (net.circuit n.circuit).port = 0) :
    Lists net (fun t => T t ∧ t ≠ n) (list.removeNode net n) := by
  have hvalid : ∀ t, T t ∧ t ≠ n → t.index < (net.circuit t.circuit).size :=
    fun t ht => h.valid t ht.1
  have hholds := h.holds.removeNode hn
  obtain ⟨e, he, hname, ⟨-, l, r, hroot, heq⟩ | ⟨hne, heq⟩⟩ := removeNode_cases h.holds hn
  · have ho := h.ordered
    rw [hroot] at ho
    rw [heq] at hholds ⊢
    exact ⟨h.sorting, hvalid, hholds, ho.remove⟩
  · rw [heq] at hholds ⊢
    refine h.rearrange he hholds hvalid fun m hm => ?_
    have hmn : m ≠ n := by
      rintro rfl
      exact hm hport
    exact ⟨by simp [hmn], mem_take_two_filter hmn⟩

/-- **Adding** a node of a circuit that is no port. -/
theorem Lists.insertNode (hn : ¬T n)
    (hport : (net.circuit n.circuit).port = 0) (hindex : n.index < (net.circuit n.circuit).size) :
    Lists net (fun t => T t ∨ t = n) (list.insertNode net n) := by
  have hvalid : ∀ t, T t ∨ t = n → t.index < (net.circuit t.circuit).size := by
    rintro t (ht | rfl)
    · exact h.valid t ht
    · exact hindex
  have hholds := h.holds.insertNode hn
  rcases insertNode_cases net list n with ⟨e, he, hname, heq⟩ | ⟨-, hsorting, -, heq⟩
  · rw [heq] at hholds ⊢
    refine h.rearrange he hholds hvalid fun m hm => ?_
    have hmn : m ≠ n := by
      rintro rfl
      exact hm hport
    refine ⟨by simp [hmn], fun hm => ?_⟩
    rw [take_append]
    exact mem_append_left _ hm
  · have hon : ¬OnPort net ⟨net.name n, [n]⟩ := by
      rintro ⟨m, hm, hmport⟩
      obtain rfl : m = n := by simpa using hm
      exact hmport hport
    have hpos : 0 ≤ sortfunc net ⟨net.name n, [n]⟩ := by simp [sortfunc, hport]
    refine ⟨hsorting.trans h.sorting, hvalid, hholds, ?_⟩
    rw [heq, if_pos h.sorting, if_neg (not_not.mpr hport)]
    exact h.ordered.insertSorted hon hpos

theorem Lists.of_iff (hT : ∀ t, T' t ↔ T t) : Lists net T' list := by
  obtain rfl : T' = T := funext fun t => propext (hT t)
  exact h

/-- The list is read with the names of its nodes and the ports and sizes of
their circuits. -/
theorem Lists.congr {net' : Net} (hname : ∀ t, T t → net'.name t = net.name t)
    (hport : ∀ t, T t → (net'.circuit t.circuit).port = (net.circuit t.circuit).port)
    (hsize : ∀ t, T t → (net'.circuit t.circuit).size = (net.circuit t.circuit).size) :
    Lists net' T list := by
  have hT := fun e he t ht => (((h.holds.entry e he).2.2 t).mp ht).1
  have hon : ∀ e ∈ list.root, OnPort net' e ↔ OnPort net e := fun e he =>
    exists_congr fun t => and_congr_right fun ht => by rw [hport t (hT e he t ht)]
  refine ⟨h.sorting, fun t ht => ?_, ⟨h.holds.nodup, fun e he => ?_, fun t ht => ?_⟩, ⟨?_, ?_⟩⟩
  · rw [hsize t ht]
    exact h.valid t ht
  · obtain ⟨hne, hnodup, hmem⟩ := h.holds.entry e he
    refine ⟨hne, hnodup, fun t => ?_⟩
    rw [hmem]
    exact and_congr_right fun ht => by rw [hname t ht]
  · rw [hname t ht]
    exact h.holds.cover t ht
  · refine h.ordered.pairwise.imp_of_mem fun {d e} hd he himp => ?_
    rw [hon d hd, hon e he]
    exact himp
  · intro e he hport'
    obtain ⟨t, ht, htport⟩ := h.ordered.seen e he ((hon e he).mp hport')
    refine ⟨t, ht, ?_⟩
    rwa [hport t (hT e he t (mem_of_mem_take ht))]

/-! ## One circuit more or less -/

theorem Lists.removeNodes (hnodup : nodes.Nodup)
    (hnodes : ∀ n ∈ nodes, T n ∧ (net.circuit n.circuit).port = 0) :
    Lists net (fun t => T t ∧ t ∉ nodes) (nodes.foldl (NodeList.removeNode net) list) := by
  refine Lib.Fold.foldl_rule (P := fun done list => Lists net (fun t => T t ∧ t ∉ done) list)
    (h.of_iff fun _ => by simp) ?_
  intro done n rest heq hdone
  obtain ⟨hn, hport⟩ := hnodes n (heq ▸ by simp)
  refine (hdone.removeNode ⟨hn, not_mem_done hnodup heq⟩ hport).of_iff fun t => ?_
  simp only [mem_append, mem_singleton, not_or, and_assoc]

theorem Lists.insertNodes (hnodup : nodes.Nodup)
    (hnodes : ∀ n ∈ nodes, ¬T n ∧ (net.circuit n.circuit).port = 0 ∧
      n.index < (net.circuit n.circuit).size) :
    Lists net (fun t => T t ∨ t ∈ nodes) (nodes.foldl (NodeList.insertNode net) list) := by
  refine Lib.Fold.foldl_rule (P := fun done list => Lists net (fun t => T t ∨ t ∈ done) list)
    (h.of_iff fun _ => by simp) ?_
  intro done n rest heq hdone
  obtain ⟨hn, hport, hindex⟩ := hnodes n (heq ▸ by simp)
  have hnew := not_or.mpr ⟨hn, not_mem_done hnodup heq⟩
  refine (hdone.insertNode hnew hport hindex).of_iff fun t => ?_
  simp only [mem_append, mem_singleton, or_assoc]

/-- **Removing a circuit** that is no port, with all its nodes. -/
theorem Lists.remove {c : Id} (hport : (net.circuit c).port = 0)
    (hc : ∀ t ∈ net.terminalsOf c, T t) :
    Lists net (fun t => T t ∧ t.circuit ≠ c) (list.remove net c) := by
  have hnodes := h.removeNodes (net.nodup_terminalsOf c) fun n hn => by
    rw [((net.mem_terminalsOf).mp hn).1]
    exact ⟨hc n hn, hport⟩
  refine hnodes.of_iff fun t => and_congr_right fun ht => not_congr ?_
  rw [net.mem_terminalsOf]
  refine ⟨fun hcirc => ⟨hcirc, ?_⟩, And.left⟩
  rw [← hcirc]
  exact h.valid t ht

/-- **Adding a circuit** that is no port, with all its nodes. -/
theorem Lists.insert {c : Id} (hport : (net.circuit c).port = 0)
    (hc : ∀ t ∈ net.terminalsOf c, ¬T t) :
    Lists net (fun t => T t ∨ t ∈ net.terminalsOf c) (list.insert net c) := by
  refine h.insertNodes (net.nodup_terminalsOf c) fun n hn => ?_
  obtain ⟨hcirc, hindex⟩ := (net.mem_terminalsOf).mp hn
  rw [hcirc]
  exact ⟨hc n hn, hport, hindex⟩

end Lists

/-! ## The whole list -/

section Create

variable {net : Net}

theorem uniqueNames_foldl (net : Net) (nodes : List Terminal) :
    nodes.foldl (NodeList.uniqueNames net) [] = (nodes.map net.name).reverse ∪ [] := by
  show _ = foldr .insert [] (map net.name nodes).reverse
  simp only [foldr_reverse, foldl_map, List.insert, elem_eq_mem, decide_eq_true_eq]
  rfl

theorem create_holds (hroot : net.root.Nodup) :
    Holds net (· ∈ net.terminals) (NodeList.create net).root := by
  have hmem : ∀ x, x ∈ net.terminals.foldl (NodeList.uniqueNames net) [] ↔
      ∃ n ∈ net.terminals, net.name n = x := by
    simp [uniqueNames_foldl]
  constructor
  case nodup =>
    rw [NodeList.create, map_map, uniqueNames_foldl]
    exact (map_id _).symm ▸ nodup_nil.union _
  case entry =>
    intro e he
    obtain ⟨x, hx, rfl⟩ := mem_map.mp he
    have hnodes : ∀ t, t ∈ net.terminals.filter (fun n => x = net.name n) ↔
        t ∈ net.terminals ∧ net.name t = x := by
      intro t
      rw [mem_filter, decide_eq_true_eq, eq_comm]
    refine ⟨?_, (net.nodup_terminals hroot).filter _, hnodes⟩
    obtain ⟨n, hn, hname⟩ := (hmem x).mp hx
    exact ne_nil_of_mem ((hnodes n).mpr ⟨hn, hname⟩)
  case cover =>
    intro t ht
    have hx := (hmem (net.name t)).mpr ⟨t, ht, rfl⟩
    exact ⟨_, mem_map_of_mem hx, rfl⟩

/-- The candidate is an entry of the list, or the one from before. -/
theorem lastOrder_some : ∀ (root : List Entry) (cand : Entry) (maxPorts : ℤ),
    ∃ e ∈ cand :: root, NodeList.lastOrder net root (some cand) maxPorts = some e
  | [], cand, _ => ⟨cand, mem_cons_self, rfl⟩
  | d :: root, cand, maxPorts => by
    rw [NodeList.lastOrder]
    split_ifs
    · exact ⟨d, by simp, rfl⟩
    · obtain ⟨e, he, hres⟩ := lastOrder_some root d (sortfunc net d)
      exact ⟨e, mem_cons_of_mem _ he, hres⟩
    · obtain ⟨e, he, hres⟩ := lastOrder_some root cand maxPorts
      refine ⟨e, ?_, hres⟩
      rcases mem_cons.mp he with rfl | he
      · exact mem_cons_self
      · exact mem_cons_of_mem _ (mem_cons_of_mem _ he)

theorem lastOrder_mem (net : Net) {root : List Entry} (hne : root ≠ []) :
    ∃ e ∈ root, NodeList.lastOrder net root none (-1) = some e := by
  obtain ⟨d, root, rfl⟩ := exists_cons_of_ne_nil hne
  rw [NodeList.lastOrder]
  split_ifs with hd hmax
  · exact ⟨d, mem_cons_self, rfl⟩
  · exact lastOrder_some root d _
  · exact absurd (.inr (by decide)) hmax

/-- **The loop of `sort`**: what taking one candidate after the other keeps. -/
theorem sortLoop_rule (net : Net) {P : List Entry → List Entry → Prop}
    (step : ∀ l e r sorted, (∀ d ∈ l, d.name ≠ e.name) →
      NodeList.lastOrder net (l ++ e :: r) none (-1) = some e → P (l ++ e :: r) sorted →
      P (l ++ r) (e :: sorted)) :
    ∀ (len : ℕ) {root sorted : List Entry}, root.length = len → (root.map Entry.name).Nodup →
      P root sorted → P [] (NodeList.sortLoop net len root sorted)
  | 0, root, sorted, hlen, _, h => by
    rw [length_eq_zero_iff.mp hlen] at h
    exact h
  | len + 1, root, sorted, hlen, hnodup, h => by
    have hne : root ≠ [] := by
      rintro rfl
      simp at hlen
    obtain ⟨e, he, hres⟩ := lastOrder_mem net hne
    obtain ⟨l, r, rfl, hl⟩ := split_of_nodup hnodup he
    have hsub := List.Sublist.append_left (sublist_cons_self e r) l
    have herase : (l ++ e :: r).eraseP (·.name = e.name) = l ++ r := eraseP_split hl
    have hlen' : (l ++ r).length = len := by
      simp only [length_append, length_cons] at hlen ⊢
      omega
    rw [NodeList.sortLoop, hres]
    dsimp only
    rw [herase]
    exact sortLoop_rule net step len hlen' (hnodup.sublist (hsub.map _))
      (step l e r sorted hl hres h)

theorem sort_perm {list : NodeList} (hnodup : (list.root.map Entry.name).Nodup) :
    (list.sort net).root.Perm list.root := by
  refine sortLoop_rule net (P := fun root sorted => (root ++ sorted).Perm list.root) ?_ _ rfl hnodup
    (append_nil _ ▸ .refl _)
  intro l e r sorted _ _ h
  refine .trans ?_ h
  rw [append_assoc, append_assoc, cons_append]
  exact List.Perm.append_left l perm_middle

/-- The candidate of `sort` may stand behind every entry. -/
theorem lastOrder_before : ∀ {root : List Entry} {cand : Option Entry} {maxPorts : ℤ} {c : Entry},
    (∀ e ∈ root, sortfunc net e = -1 ∨ 0 ≤ sortfunc net e) →
    (∀ d, cand = some d → maxPorts = sortfunc net d ∧ 0 ≤ maxPorts) →
    (cand = none → maxPorts < 0) →
    NodeList.lastOrder net root cand maxPorts = some c →
    (∀ e ∈ root, Before net e c) ∧ ∀ d, cand = some d → Before net d c
  | [], cand, maxPorts, c, _, hcand, _, hres => by
    refine ⟨fun e he => absurd he not_mem_nil, fun d hd => ?_⟩
    cases hd.symm.trans hres
    obtain ⟨hmax, hpos⟩ := hcand c hd
    exact .inr ⟨hmax ▸ hpos, le_rfl⟩
  | e :: root, cand, maxPorts, c, hkeys, hcand, hnone, hres => by
    have hrest := fun d hd => hkeys d (mem_cons_of_mem _ hd)
    rw [NodeList.lastOrder] at hres
    split_ifs at hres with hport hmax
    · obtain rfl := Option.some.inj hres
      have hneg : sortfunc net e < 0 := by omega
      exact ⟨fun _ _ => .inl hneg, fun _ _ => .inl hneg⟩
    · have hpos := (hkeys e mem_cons_self).resolve_left hport
      have hcand' : ∀ d, some e = some d →
          sortfunc net e = sortfunc net d ∧ 0 ≤ sortfunc net e := by
        rintro d ⟨⟩
        exact ⟨rfl, hpos⟩
      obtain ⟨hroot, he⟩ := lastOrder_before hrest hcand' (by simp) hres
      have hec := he e rfl
      refine ⟨forall_mem_cons.mpr ⟨hec, hroot⟩, fun d hd => ?_⟩
      obtain ⟨hd, hdpos⟩ := hcand d hd
      refine Before.trans (.inr ?_) hec
      omega
    · obtain ⟨hroot, hd⟩ := lastOrder_before hrest hcand hnone hres
      refine ⟨forall_mem_cons.mpr ⟨?_, hroot⟩, hd⟩
      cases cand with
      | none => exact absurd (.inr (hnone rfl)) hmax
      | some d =>
        have hpos := (hkeys e mem_cons_self).resolve_left hport
        have := (hcand d rfl).1
        refine Before.trans (.inr ?_) (hd d rfl)
        omega

theorem sort_pairwise {list : NodeList} (hnodup : (list.root.map Entry.name).Nodup)
    (hkeys : ∀ e ∈ list.root, sortfunc net e = -1 ∨ 0 ≤ sortfunc net e) :
    (list.sort net).root.Pairwise (Before net) := by
  have h := sortLoop_rule net
    (P := fun root sorted => root ⊆ list.root ∧ sorted.Pairwise (Before net) ∧
      ∀ e ∈ root, ∀ d ∈ sorted, Before net e d)
    ?_ list.root.length rfl hnodup
    ⟨List.Subset.refl _, List.Pairwise.nil, fun _ _ _ h => absurd h not_mem_nil⟩
  · exact h.2.1
  · rintro l e r sorted - hres ⟨hmem, hsorted, hbefore⟩
    have hsub := (List.Sublist.append_left (sublist_cons_self e r) l).subset
    obtain ⟨hlast, -⟩ := lastOrder_before (fun d hd => hkeys d (hmem hd)) (by simp) (by simp) hres
    refine ⟨fun d hd => hmem (hsub hd), ?_, fun d hd => forall_mem_cons.mpr ⟨?_, ?_⟩⟩
    · exact pairwise_cons.mpr ⟨hbefore e (by simp), hsorted⟩
    · exact hlast d (hsub hd)
    · exact hbefore d (hsub hd)

/-- **The list at the start** of an analysis. -/
theorem sort_lists (hroot : net.root.Nodup)
    (hseen : ∀ e ∈ (NodeList.create net).root, OnPort net e → SeenOnPort net e) :
    Lists net (· ∈ net.terminals) ((NodeList.create net).sort net) := by
  have hholds := create_holds hroot
  have hvalid : ∀ t, t ∈ net.terminals → t.index < (net.circuit t.circuit).size :=
    fun t ht => (net.mem_terminals.mp ht).2
  have hperm := @sort_perm net _ hholds.nodup
  have hpairwise := sort_pairwise hholds.nodup fun e he => hholds.sortfunc_cases hvalid he
  refine ⟨rfl, hvalid, hholds.perm hperm.symm, hpairwise.imp_of_mem ?_,
    fun e he => hseen e (hperm.mem_iff.mp he)⟩
  intro e e' he he' hbefore
  exact hbefore.onPort (hseen e (hperm.mem_iff.mp he))
    (hholds.sortfunc_nonneg hvalid (hperm.mem_iff.mp he'))

end Create

end Qucs.Network
