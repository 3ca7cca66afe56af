/-
# Removing and inserting circuits

After `sort` the node list is kept up to date while the solver removes circuits
and inserts the joined ones. Two things are asked of it after any number of
such updates:

* bookkeeping: the entries hold exactly the nodes of the registered circuits, one
  entry to a name (`Holds`)
* order: the sizes `sortfunc` grow along the list and entries at ports come last
  (`InOrder`)

The bookkeeping never fails (`run_holds`). The order may: an entry is inserted
again only if its new size is positive, so one whose size drops to 0, or that
gets its first node of a port, stays where it was (`lateNet`). It is kept as
long as a changed entry that is not inserted again has the size it had before
(`Fits`), **over any run** (`run_inOrder`).
-/
import Qucs.Network.NodeList

namespace Qucs.Network

open Net List

/-! ## The order of reduction -/

/-- Sorted in the reduction order, nodes at ports behind all others. -/
structure InOrder (net : Net) (root : List Entry) : Prop where
  sorted : root.Pairwise (Before net)
  ports : root.Pairwise fun e e' => OnPort net e → OnPort net e'

/-- The order of a list whose nodes at ports are seen by `sortfunc`. -/
structure Sorted (net : Net) (T : Terminal → Prop) (list : NodeList) : Prop where
  sorting : list.sorting
  valid : ∀ t, T t → t.index < (net.circuit t.circuit).size
  holds : Holds net T list.root
  pairwise : list.root.Pairwise (Before net)
  seen : ∀ e ∈ list.root, OnPort net e → SeenOnPort net e

section Order

variable {net : Net} {T T' : Terminal → Prop} {list : NodeList} {l r root : List Entry}
  {e e' : Entry}

theorem pairwise_insertSorted_before (h : root.Pairwise (Before net)) (hpos : 0 ≤ sortfunc net e) :
    (insertSorted net e root).Pairwise (Before net) := by
  refine pairwise_insertSorted .trans h fun d _ => ?_
  split
  case isTrue hins =>
    simp only [insfunc, decide_eq_true_eq] at hins
    simp only [Before]
    omega
  case isFalse hins =>
    simp only [insfunc, decide_eq_true_eq] at hins
    simp only [Before]
    omega

/-- A change in place that keeps the size keeps the order. -/
theorem pairwise_set_before (h : (l ++ e :: r).Pairwise (Before net))
    (hsize : sortfunc net e' = sortfunc net e) : (l ++ e' :: r).Pairwise (Before net) := by
  refine pairwise_set h (fun d hd => ?_) (fun d hd => ?_)
  · rwa [Before, ← hsize] at hd
  · rwa [Before, ← hsize] at hd

theorem Sorted.inOrder (h : Sorted net T list) : InOrder net list.root where
  sorted := h.pairwise
  ports := by
    refine h.pairwise.imp_of_mem ?_
    intro e e' he he' hbefore
    exact hbefore.onPort (h.seen e he) (h.holds.sortfunc_nonneg h.valid he')

/-! ## One node more or less -/

/-- A changed entry keeps the order: it is inserted again, or its size is what
it was; and a node of a port is seen. -/
def Fits (net : Net) (e e' : Entry) : Prop :=
  (0 < sortfunc net e' ∨ sortfunc net e' = sortfunc net e) ∧ (OnPort net e' → SeenOnPort net e')

theorem Sorted.rearrange (h : Sorted net T list) (he : e ∈ list.root) {nodes : List Terminal}
    (hfits : Fits net e { e with nodes := nodes })
    (hvalid : ∀ t, T' t → t.index < (net.circuit t.circuit).size)
    (hholds : Holds net T' (list.rearrange net { e with nodes := nodes }).root) :
    Sorted net T' (list.rearrange net { e with nodes := nodes }) := by
  obtain ⟨l, r, hroot, hsorting, hperm, hcases⟩ := rearrange_cases net h.holds.nodup he nodes
  have hsub : (l ++ r).Sublist list.root :=
    hroot ▸ List.Sublist.append_left (sublist_cons_self e r) l
  have hseen := forall_mem_cons.mpr ⟨hfits.2, fun d hd => h.seen d (hsub.subset hd)⟩
  refine ⟨hsorting.trans h.sorting, hvalid, hholds, ?_, ?_⟩
  · rcases hcases with ⟨-, hpos, heq⟩ | ⟨hneg, heq⟩
    · rw [heq]
      exact pairwise_insertSorted_before (h.pairwise.sublist hsub) hpos.le
    · rw [heq]
      refine pairwise_set_before (hroot ▸ h.pairwise) (hfits.1.resolve_left fun hpos => ?_)
      exact hneg ⟨h.sorting, hpos⟩
  · exact fun d hd => hseen d (hperm.mem_iff.mpr hd)

def nodesAt (root : List Entry) (x : String) : List Terminal :=
  ((root.find? (·.name = x)).map Entry.nodes).getD []

theorem nodesAt_cons (e : Entry) (root : List Entry) (x : String) :
    nodesAt (e :: root) x = if e.name = x then e.nodes else nodesAt root x := by
  rw [nodesAt, find?_cons]
  by_cases hx : e.name = x
  · simp [hx]
  · simp [hx, nodesAt]

theorem nodesAt_of_ne {x : String} (hx : ∀ e ∈ root, e.name ≠ x) : nodesAt root x = [] := by
  rw [nodesAt, find?_eq_none.mpr fun d hd => by simpa using hx d hd]
  rfl

theorem nodesAt_of_mem (hnames : (root.map Entry.name).Nodup) (he : e ∈ root) :
    nodesAt root e.name = e.nodes := by
  obtain ⟨l, r, rfl, hl⟩ := split_of_nodup hnames he
  have hfind : (l ++ e :: r).find? (·.name = e.name) = some e := by
    rw [find?_append, find?_eq_none.mpr fun d hd => by simpa using hl d hd]
    simp
  rw [nodesAt, hfind]
  rfl

theorem nodesAt_perm {root' : List Entry} (hnames : (root.map Entry.name).Nodup)
    (hp : root.Perm root') (x : String) : nodesAt root' x = nodesAt root x := by
  by_cases hx : ∃ e ∈ root, e.name = x
  · obtain ⟨e, he, rfl⟩ := hx
    rw [nodesAt_of_mem hnames he,
      nodesAt_of_mem ((hp.map _).nodup_iff.mp hnames) (hp.mem_iff.mp he)]
  · push Not at hx
    rw [nodesAt_of_ne hx, nodesAt_of_ne fun e he => hx e (hp.mem_iff.mpr he)]

theorem nodesAt_rearrange (hnames : (list.root.map Entry.name).Nodup) (he : e ∈ list.root)
    (nodes : List Terminal) (x : String) :
    nodesAt (list.rearrange net { e with nodes := nodes }).root x =
      if e.name = x then nodes else nodesAt list.root x := by
  obtain ⟨l, r, hroot, -, hperm, -⟩ := rearrange_cases net hnames he nodes
  have hnames' : (({ e with nodes := nodes } :: (l ++ r)).map Entry.name).Nodup :=
    ((perm_middle (a := e)).map Entry.name).nodup_iff.mp (hroot ▸ hnames)
  rw [nodesAt_perm hnames' hperm, nodesAt_cons, hroot,
    ← nodesAt_perm (hroot ▸ hnames) perm_middle, nodesAt_cons]
  split_ifs <;> rfl

theorem nodesAt_insertNode (h : Holds net T list.root) (n : Terminal) (x : String) :
    nodesAt (list.insertNode net n).root x =
      nodesAt list.root x ++ [n].filter (net.name · = x) := by
  rcases insertNode_cases net list n with ⟨e, he, hname, heq⟩ | ⟨hnone, -, hperm, -⟩
  · rw [heq, nodesAt_rearrange h.nodup he, hname]
    split_ifs with hx
    · rw [← hx, ← hname, nodesAt_of_mem h.nodup he]
      simp [hname]
    · simp [hx]
  · have hnames := (h.newEntry hnone).nodup
    rw [nodesAt_perm hnames hperm, nodesAt_cons]
    split_ifs with hx
    · have hx' : net.name n = x := hx
      rw [nodesAt_of_ne (hx' ▸ hnone)]
      simp [hx']
    · simp [show net.name n ≠ x from hx]

theorem nodesAt_removeNode (h : Holds net T list.root) {n : Terminal} (hn : T n) (x : String) :
    nodesAt (list.removeNode net n).root x = (nodesAt list.root x).filter (· ≠ n) := by
  have hother : x ≠ net.name n → (nodesAt list.root x).filter (· ≠ n) = nodesAt list.root x := by
    intro hx
    refine filter_eq_self.mpr fun t ht => decide_eq_true ?_
    rintro rfl
    by_cases hx' : ∃ e ∈ list.root, e.name = x
    · obtain ⟨e, he, rfl⟩ := hx'
      rw [nodesAt_of_mem h.nodup he, (h.entry e he).2.2] at ht
      exact hx ht.2.symm
    · push Not at hx'
      rw [nodesAt_of_ne hx'] at ht
      exact not_mem_nil ht
  obtain ⟨e, he, hname, ⟨hnil, l, r, hroot, heq⟩ | ⟨hne, heq⟩⟩ := removeNode_cases h hn
  · rw [heq]
    have hnames : ((e :: (l ++ r)).map Entry.name).Nodup :=
      ((perm_middle).map Entry.name).nodup_iff.mp (hroot ▸ h.nodup)
    have hcons := nodesAt_perm (hroot ▸ h.nodup) (perm_middle) x
    rw [nodesAt_cons, ← hroot] at hcons
    split_ifs at hcons with hx
    · have hgone : ∀ d ∈ l ++ r, d.name ≠ x := by
        intro d hd heq'
        exact (nodup_cons.mp hnames).1 (hx ▸ heq' ▸ mem_map_of_mem hd)
      rw [nodesAt_of_ne hgone, ← hcons, hnil]
    · rw [hother (hname ▸ Ne.symm hx), ← hcons]
  · rw [heq, nodesAt_rearrange h.nodup he]
    split_ifs with hx
    · rw [← hx, nodesAt_of_mem h.nodup he]
    · rw [hother (hname ▸ Ne.symm hx)]

theorem Sorted.removeNode (h : Sorted net T list) {n : Terminal} (hn : T n)
    (hfits : ∀ e ∈ list.root, e.name = net.name n → e.nodes.filter (· ≠ n) ≠ [] →
      Fits net e { e with nodes := e.nodes.filter (· ≠ n) }) :
    Sorted net (fun t => T t ∧ t ≠ n) (list.removeNode net n) := by
  have hvalid : ∀ t, T t ∧ t ≠ n → t.index < (net.circuit t.circuit).size :=
    fun t ht => h.valid t ht.1
  have hholds := h.holds.removeNode hn
  obtain ⟨e, he, hname, ⟨-, l, r, hroot, heq⟩ | ⟨hne, heq⟩⟩ := removeNode_cases h.holds hn
  · have hsub : (l ++ r).Sublist list.root :=
      hroot ▸ List.Sublist.append_left (sublist_cons_self e r) l
    rw [heq] at hholds ⊢
    exact ⟨h.sorting, hvalid, hholds, h.pairwise.sublist hsub,
      fun d hd => h.seen d (hsub.subset hd)⟩
  · rw [heq] at hholds ⊢
    exact h.rearrange he (hfits e he hname hne) hvalid hholds

theorem Sorted.insertNode (h : Sorted net T list) {n : Terminal} (hn : ¬T n)
    (hindex : n.index < (net.circuit n.circuit).size)
    (hfits : ∀ e ∈ list.root, e.name = net.name n → Fits net e { e with nodes := e.nodes ++ [n] }) :
    Sorted net (fun t => T t ∨ t = n) (list.insertNode net n) := by
  have hvalid : ∀ t, T t ∨ t = n → t.index < (net.circuit t.circuit).size := by
    rintro t (ht | rfl)
    · exact h.valid t ht
    · exact hindex
  have hholds := h.holds.insertNode hn
  rcases insertNode_cases net list n with ⟨e, he, hname, heq⟩ | ⟨-, hsorting, hperm, heq⟩
  · rw [heq] at hholds ⊢
    exact h.rearrange he (hfits e he hname) hvalid hholds
  · rw [if_pos h.sorting] at heq
    have hnew : OnPort net ⟨net.name n, [n]⟩ → SeenOnPort net ⟨net.name n, [n]⟩ := id
    refine ⟨hsorting.trans h.sorting, hvalid, hholds, ?_, ?_⟩
    · rw [heq]
      split_ifs with hport
      · have hneg : sortfunc net ⟨net.name n, [n]⟩ < 0 := by simp [sortfunc, hport]
        refine pairwise_append.mpr ⟨h.pairwise, pairwise_singleton _ _, ?_⟩
        intro d _ d' hd'
        rw [mem_singleton.mp hd']
        exact .inl hneg
      · exact pairwise_insertSorted_before h.pairwise (by simp [sortfunc, hport])
    · intro d hd
      rcases mem_cons.mp (hperm.mem_iff.mpr hd) with rfl | hd
      · exact hnew
      · exact h.seen d hd

end Order

/-! ## Updates -/

/-- What the solver does to the list once it is sorted. -/
inductive Update where
  | remove (c : Id)
  | insert (c : Id)

namespace Update

def apply (net : Net) (list : NodeList) : Update → NodeList
  | .remove c => list.remove net c
  | .insert c => list.insert net c

def registered (regs : List Id) : Update → List Id
  | .remove c => regs.erase c
  | .insert c => c :: regs

/-- Registered circuits are removed, others inserted. -/
def Allowed (regs : List Id) : Update → Prop
  | .remove c => c ∈ regs
  | .insert c => c ∉ regs

/-- The nodes under the name of a node that is removed, and inserted, when its
turn comes: the nodes `done` of the circuit have come before. -/
def nodesBefore (net : Net) (list : NodeList) (done : List Terminal) (n : Terminal) :
    Update → List Terminal
  | .remove _ => (nodesAt list.root (net.name n)).filter (· ∉ done)
  | .insert _ => nodesAt list.root (net.name n) ++ done.filter (net.name · = net.name n)

/-- Every change of an entry fits, judged before the update. -/
def Fits (net : Net) (list : NodeList) : Update → Prop
  | .remove c => ∀ k < (net.circuit c).size,
      let n : Terminal := ⟨c, k⟩
      let nodes := nodesBefore net list ((net.terminalsOf c).take k) n (.remove c)
      nodes.filter (· ≠ n) ≠ [] →
      Network.Fits net ⟨net.name n, nodes⟩ ⟨net.name n, nodes.filter (· ≠ n)⟩
  | .insert c => ∀ k < (net.circuit c).size,
      let n : Terminal := ⟨c, k⟩
      let nodes := nodesBefore net list ((net.terminalsOf c).take k) n (.insert c)
      nodes ≠ [] → Network.Fits net ⟨net.name n, nodes⟩ ⟨net.name n, nodes ++ [n]⟩

end Update

def Registered (net : Net) (regs : List Id) (t : Terminal) : Prop :=
  t.circuit ∈ regs ∧ t.index < (net.circuit t.circuit).size

section Update

variable {net : Net} {T T' : Terminal → Prop} {list : NodeList} {regs : List Id}

theorem Sorted.of_iff (h : Sorted net T list) (hT : ∀ t, T' t ↔ T t) : Sorted net T' list := by
  obtain rfl : T' = T := funext fun t => propext (hT t)
  exact h

theorem registered_insert (c : Id) (t : Terminal) :
    Registered net (c :: regs) t ↔ Registered net regs t ∨ t ∈ net.terminalsOf c := by
  rw [Registered, Registered, net.mem_terminalsOf, mem_cons]
  constructor
  · rintro ⟨rfl | hc, hi⟩
    · exact .inr ⟨rfl, hi⟩
    · exact .inl ⟨hc, hi⟩
  · rintro (⟨hc, hi⟩ | ⟨rfl, hi⟩)
    · exact ⟨.inr hc, hi⟩
    · exact ⟨.inl rfl, hi⟩

theorem registered_erase (hregs : regs.Nodup) (c : Id) (t : Terminal) :
    Registered net (regs.erase c) t ↔ Registered net regs t ∧ t ∉ net.terminalsOf c := by
  rw [Registered, Registered, net.mem_terminalsOf, hregs.mem_erase_iff]
  constructor
  · rintro ⟨⟨hne, hc⟩, hi⟩
    exact ⟨⟨hc, hi⟩, fun h => hne h.1⟩
  · rintro ⟨⟨hc, hi⟩, hne⟩
    refine ⟨⟨?_, hc⟩, hi⟩
    rintro rfl
    exact hne ⟨rfl, hi⟩

/-- The nodes before a node of a circuit are as many as its index says. -/
theorem terminalsOf_split {c : Id} {done rest : List Terminal} {n : Terminal}
    (h : net.terminalsOf c = done ++ n :: rest) :
    ∃ k < (net.circuit c).size, done = (net.terminalsOf c).take k ∧ n = ⟨c, k⟩ := by
  have hlt : done.length < (net.circuit c).size := by
    have := congrArg length h
    simp only [terminalsOf, length_map, length_range, length_append, length_cons] at this
    omega
  refine ⟨done.length, hlt, ?_, ?_⟩
  · rw [h, take_left]
  · have hget := congrArg (·[done.length]?) h
    simpa [terminalsOf, hlt] using hget.symm

theorem Update.registered_nodup {u : Update} (hregs : regs.Nodup) (hu : u.Allowed regs) :
    (u.registered regs).Nodup := by
  cases u with
  | remove c => exact hregs.erase c
  | insert c => exact nodup_cons.mpr ⟨hu, hregs⟩

/-- Bookkeeping and names over the nodes of a circuit that are inserted. -/
theorem Holds.insertNodes {nodes : List Terminal} (h : Holds net T list.root)
    (hnodup : nodes.Nodup) (hnodes : ∀ n ∈ nodes, ¬T n) :
    Holds net (fun t => T t ∨ t ∈ nodes) (nodes.foldl (NodeList.insertNode net) list).root ∧
      ∀ x, nodesAt (nodes.foldl (NodeList.insertNode net) list).root x =
        nodesAt list.root x ++ nodes.filter (net.name · = x) := by
  refine Lib.Fold.foldl_rule
    (P := fun done (list' : NodeList) => Holds net (fun t => T t ∨ t ∈ done) list'.root ∧
      ∀ x, nodesAt list'.root x = nodesAt list.root x ++ done.filter (net.name · = x))
    ⟨h.of_iff fun _ => by simp, fun _ => by simp⟩ ?_
  rintro done n rest heq ⟨hdone, hnames⟩
  have hnew : ¬(T n ∨ n ∈ done) := not_or.mpr ⟨hnodes n (heq ▸ by simp), not_mem_done hnodup heq⟩
  refine ⟨(hdone.insertNode hnew).of_iff fun t => ?_, fun x => ?_⟩
  · simp only [List.mem_append, List.mem_singleton, or_assoc]
  · rw [nodesAt_insertNode hdone, hnames, filter_append, append_assoc]

theorem Holds.removeNodes {nodes : List Terminal} (h : Holds net T list.root)
    (hnodup : nodes.Nodup) (hnodes : ∀ n ∈ nodes, T n) :
    Holds net (fun t => T t ∧ t ∉ nodes) (nodes.foldl (NodeList.removeNode net) list).root ∧
      ∀ x, nodesAt (nodes.foldl (NodeList.removeNode net) list).root x =
        (nodesAt list.root x).filter (· ∉ nodes) := by
  refine Lib.Fold.foldl_rule
    (P := fun done (list' : NodeList) => Holds net (fun t => T t ∧ t ∉ done) list'.root ∧
      ∀ x, nodesAt list'.root x = (nodesAt list.root x).filter (· ∉ done))
    ⟨h.of_iff fun _ => by simp, fun _ => by simp⟩ ?_
  rintro done n rest heq ⟨hdone, hnames⟩
  have hold : T n ∧ n ∉ done := ⟨hnodes n (heq ▸ by simp), not_mem_done hnodup heq⟩
  refine ⟨(hdone.removeNode hold).of_iff fun t => ?_, fun x => ?_⟩
  · simp only [List.mem_append, List.mem_singleton, not_or, and_assoc]
  · rw [nodesAt_removeNode hdone hold, hnames, List.filter_filter]
    refine List.filter_congr fun t _ => ?_
    simp only [List.mem_append, List.mem_singleton, not_or, ← Bool.decide_and, and_comm]

/-- **Bookkeeping**: an update lists exactly the nodes of the circuits that are
registered then. -/
theorem Holds.apply {u : Update} (h : Holds net (Registered net regs) list.root)
    (hregs : regs.Nodup) (hu : u.Allowed regs) :
    Holds net (Registered net (u.registered regs)) (u.apply net list).root := by
  cases u with
  | remove c =>
    refine (h.removeNodes (net.nodup_terminalsOf c) fun n hn => ?_).1.of_iff
      (registered_erase hregs c)
    obtain ⟨rfl, hi⟩ := net.mem_terminalsOf.mp hn
    exact ⟨hu, hi⟩
  | insert c =>
    refine (h.insertNodes (net.nodup_terminalsOf c) fun n hn => ?_).1.of_iff (registered_insert c)
    obtain ⟨rfl, -⟩ := net.mem_terminalsOf.mp hn
    exact fun hr => hu hr.1

/-- **Order**: an update whose changes fit keeps the order. -/
theorem Sorted.apply {u : Update} (h : Sorted net (Registered net regs) list)
    (hregs : regs.Nodup) (hu : u.Allowed regs) (hfits : u.Fits net list) :
    Sorted net (Registered net (u.registered regs)) (u.apply net list) := by
  cases u with
  | remove c =>
    have hall : ∀ n ∈ net.terminalsOf c, Registered net regs n := by
      intro n hn
      obtain ⟨rfl, hi⟩ := net.mem_terminalsOf.mp hn
      exact ⟨hu, hi⟩
    refine Sorted.of_iff ?_ (registered_erase hregs c)
    refine Lib.Fold.foldl_rule
      (P := fun done list => Sorted net (fun t => Registered net regs t ∧ t ∉ done) list)
      (h.of_iff fun _ => by simp) ?_
    intro done n rest heq hdone
    have hsub : ∀ m ∈ done, m ∈ net.terminalsOf c := fun m hm => heq ▸ mem_append_left _ hm
    have hnd : done.Nodup := (nodup_append.mp (heq ▸ net.nodup_terminalsOf c)).1
    obtain ⟨-, hnames⟩ := h.holds.removeNodes hnd fun m hm => hall m (hsub m hm)
    have hold := not_mem_done (net.nodup_terminalsOf c) heq
    refine (hdone.removeNode ⟨hall n (heq ▸ by simp), hold⟩ ?_).of_iff fun t => ?_
    · intro e he hname hne
      have hnodes := nodesAt_of_mem hdone.holds.nodup he
      rw [hname, hnames] at hnodes
      rw [← hnodes] at hne
      obtain ⟨k, hk, rfl, rfl⟩ := terminalsOf_split heq
      have hfit := hfits k hk hne
      rw [Update.nodesBefore, hnodes, ← hname] at hfit
      exact hfit
    · simp only [mem_append, mem_singleton, not_or, and_assoc]
  | insert c =>
    have hall : ∀ n ∈ net.terminalsOf c, ¬Registered net regs n ∧
        n.index < (net.circuit n.circuit).size := by
      intro n hn
      obtain ⟨rfl, hi⟩ := net.mem_terminalsOf.mp hn
      exact ⟨fun hr => hu hr.1, hi⟩
    refine Sorted.of_iff ?_ (registered_insert c)
    refine Lib.Fold.foldl_rule
      (P := fun done list => Sorted net (fun t => Registered net regs t ∨ t ∈ done) list)
      (h.of_iff fun _ => by simp) ?_
    intro done n rest heq hdone
    have hsub : ∀ m ∈ done, m ∈ net.terminalsOf c := fun m hm => heq ▸ mem_append_left _ hm
    have hnd : done.Nodup := (nodup_append.mp (heq ▸ net.nodup_terminalsOf c)).1
    obtain ⟨-, hnames⟩ := h.holds.insertNodes hnd fun m hm => (hall m (hsub m hm)).1
    obtain ⟨hnot, hindex⟩ := hall n (heq ▸ by simp)
    have hnew := not_or.mpr ⟨hnot, not_mem_done (net.nodup_terminalsOf c) heq⟩
    refine (hdone.insertNode hnew hindex ?_).of_iff fun t => ?_
    · intro e he hname
      have hnodes := nodesAt_of_mem hdone.holds.nodup he
      rw [hname, hnames] at hnodes
      have hne := (hdone.holds.entry e he).1
      rw [← hnodes] at hne
      obtain ⟨k, hk, rfl, rfl⟩ := terminalsOf_split heq
      have hfit := hfits k hk hne
      rw [Update.nodesBefore, hnodes, ← hname] at hfit
      exact hfit
    · simp only [mem_append, mem_singleton, or_assoc]

end Update

/-! ## Runs -/

def run (net : Net) (us : List Update) (list : NodeList) : NodeList :=
  us.foldl (Update.apply net) list

def registeredAfter (us : List Update) (regs : List Id) : List Id :=
  us.foldl Update.registered regs

def Allowed : List Id → List Update → Prop
  | _, [] => True
  | regs, u :: us => u.Allowed regs ∧ Allowed (u.registered regs) us

def FitsAlong (net : Net) : NodeList → List Update → Prop
  | _, [] => True
  | list, u :: us => u.Fits net list ∧ FitsAlong net (u.apply net list) us

/-- A port is among the first two nodes of its name. -/
def PortsSeen (net : Net) : Prop :=
  ∀ t ∈ net.terminals, (net.circuit t.circuit).port ≠ 0 →
    ∃ m ∈ (net.carriers (net.name t)).take 2, (net.circuit m.circuit).port ≠ 0

section Run

variable {net : Net}

theorem run_holds : ∀ {us : List Update} {regs : List Id} {list : NodeList}, regs.Nodup →
    Allowed regs us → Holds net (Registered net regs) list.root →
    Holds net (Registered net (registeredAfter us regs)) (run net us list).root
  | [], _, _, _, _, h => h
  | u :: us, regs, list, hregs, hus, h => by
    have hrest := run_holds (Update.registered_nodup hregs hus.1) hus.2 (h.apply hregs hus.1)
    exact hrest

theorem run_sorted : ∀ {us : List Update} {regs : List Id} {list : NodeList}, regs.Nodup →
    Allowed regs us → FitsAlong net list us → Sorted net (Registered net regs) list →
    Sorted net (Registered net (registeredAfter us regs)) (run net us list)
  | [], _, _, _, _, _, h => h
  | u :: us, regs, list, hregs, hus, hfits, h => by
    have hrest := run_sorted (Update.registered_nodup hregs hus.1) hus.2 hfits.2
      (h.apply hregs hus.1 hfits.1)
    exact hrest

theorem create_registered (hroot : net.root.Nodup) :
    Holds net (Registered net net.root) (NodeList.create net).root :=
  (create_holds hroot).of_iff fun _ => net.mem_terminals.symm

theorem sort_sorted (hroot : net.root.Nodup) (hseen : PortsSeen net) :
    Sorted net (Registered net net.root) ((NodeList.create net).sort net) := by
  have hholds := create_registered hroot
  have hperm : ((NodeList.create net).sort net).root.Perm _ := sort_perm hholds.nodup
  have hvalid : ∀ t, Registered net net.root t → t.index < (net.circuit t.circuit).size :=
    fun t ht => ht.2
  have hpairwise := sort_pairwise hholds.nodup fun e he => hholds.sortfunc_cases hvalid he
  refine ⟨rfl, hvalid, hholds.perm hperm.symm, hpairwise, fun e he => ?_⟩
  rintro ⟨t, ht, hport⟩
  obtain ⟨x, -, rfl⟩ := mem_map.mp (hperm.mem_iff.mp he)
  have hcarriers : net.terminals.filter (fun n => x = net.name n) = net.carriers x :=
    filter_congr fun n _ => decide_eq_decide.mpr eq_comm
  have hmem : t ∈ net.carriers x := hcarriers ▸ ht
  obtain ⟨hterm, rfl⟩ := net.mem_carriers.mp hmem
  rw [SeenOnPort, hcarriers]
  exact hseen t hterm hport

/-- **The node list over any run** of removals and insertions: it always holds
exactly the nodes of the registered circuits, and it is in order if the ports of
the net are seen and every change fits. -/
theorem run_inOrder (net : Net) (hroot : net.root.Nodup) (us : List Update)
    (hus : Allowed net.root us) :
    Holds net (Registered net (registeredAfter us net.root))
        (run net us ((NodeList.create net).sort net)).root ∧
      (PortsSeen net → FitsAlong net ((NodeList.create net).sort net) us →
        InOrder net (run net us ((NodeList.create net).sort net)).root) := by
  have hholds := create_registered hroot
  refine ⟨run_holds hroot hus (hholds.perm (sort_perm hholds.nodup).symm), fun hseen hfits => ?_⟩
  exact (run_sorted hroot hus hfits (sort_sorted hroot hseen)).inOrder

end Run

/-! ### Late ports and joins without nodes -/

instance (net : Net) : DecidableRel (Before net) := fun e e' =>
  inferInstanceAs (Decidable (sortfunc net e' < 0 ∨
    (0 ≤ sortfunc net e ∧ sortfunc net e ≤ sortfunc net e')))

instance (net : Net) (e : Entry) : Decidable (OnPort net e) :=
  inferInstanceAs (Decidable (∃ n ∈ e.nodes, (net.circuit n.circuit).port ≠ 0))

instance (net : Net) (e : Entry) : Decidable (SeenOnPort net e) :=
  inferInstanceAs (Decidable (∃ n ∈ e.nodes.take 2, (net.circuit n.circuit).port ≠ 0))

instance (net : Net) (e e' : Entry) : Decidable (Fits net e e') :=
  inferInstanceAs (Decidable ((0 < sortfunc net e' ∨ sortfunc net e' = sortfunc net e) ∧
    (OnPort net e' → SeenOnPort net e')))

/-- One-ports at `a` and `b`. Others wait: a port at `a`, a one-port at `b` and
a two-port between `b` and `c`. -/
def lateNet : Net where
  circuit
    | .original 2 => { Circuit.create .pac 1 0 with port := 1 }
    | .original 4 => Circuit.create .other 2 0
    | _ => Circuit.create .other 1 0
  name
    | ⟨.original 0, _⟩ => "a"
    | ⟨.original 2, _⟩ => "a"
    | ⟨.original 4, 1⟩ => "c"
    | _ => "b"
  root := [.original 0, .original 1]
  drop := []
  nCircuits := 2
  nPorts := 0
  nSources := 0
  inserted := 0
  insertedNodes := 0
  reduced := 0

/-- The port stays in front of `b`; the join of two one-ports has no node left
and stays behind `a`. -/
theorem lateNet_not_inOrder :
    (Allowed lateNet.root [.insert (.original 2)] ∧
      ¬InOrder lateNet (run lateNet [.insert (.original 2)]
        ((NodeList.create lateNet).sort lateNet)).root) ∧
    (Allowed lateNet.root [.insert (.original 3)] ∧
      ¬InOrder lateNet (run lateNet [.insert (.original 3)]
        ((NodeList.create lateNet).sort lateNet)).root) := by
  refine ⟨⟨⟨?_, trivial⟩, fun h => absurd h.sorted (by decide)⟩,
    ⟨⟨?_, trivial⟩, fun h => absurd h.sorted (by decide)⟩⟩
  · show Id.original 2 ∉ lateNet.root
    decide
  · show Id.original 3 ∉ lateNet.root
    decide

theorem lateNet_run_inOrder :
    Holds lateNet (Registered lateNet [.original 4, .original 1])
        (run lateNet [.remove (.original 0), .insert (.original 4)]
          ((NodeList.create lateNet).sort lateNet)).root ∧
      InOrder lateNet (run lateNet [.remove (.original 0), .insert (.original 4)]
        ((NodeList.create lateNet).sort lateNet)).root := by
  have hallowed : Allowed lateNet.root [.remove (.original 0), .insert (.original 4)] := by
    refine ⟨?_, ?_, trivial⟩
    · show Id.original 0 ∈ lateNet.root
      decide
    · show Id.original 4 ∉ [Id.original 1]
      decide
  obtain ⟨hholds, horder⟩ := run_inOrder lateNet (by decide) _ hallowed
  refine ⟨hholds, horder ?_ ⟨?_, ?_, trivial⟩⟩
  · show ∀ t ∈ lateNet.terminals, (lateNet.circuit t.circuit).port ≠ 0 → _
    decide
  · show ∀ k < 1, _
    decide
  · show ∀ k < 2, _
    decide

end Qucs.Network
