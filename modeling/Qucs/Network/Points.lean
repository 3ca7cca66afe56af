/-
# The frequency loop neither sticks nor wears

What holds of net and list together (`Underway`, `Steady`): circuits of the
prepared net are either in the list or put aside, the counters are right, the
list knows exactly the nodes of the net, and the number of nodes the loop still
counts is twice the number of internal nodes plus that of the ports.

So as long as the loop goes on there is an internal node, it is at the head of
the list, and each join takes one; and when the circuits put aside have come back
the net is the prepared one.
-/
import Qucs.Network.Joinable

namespace Qucs.Network

open Net List

/-! ## The head of the list -/

/-- **The head of the list** is an internal node, if there is any. -/
theorem Lists.head {net : Net} {list : NodeList} (h : Lists net (· ∈ net.terminals) list)
    (hnet : Joinable net) (hint : net.internalNodes ≠ []) :
    ∃ x n1 n2 rest, list.root = ⟨x, [n1, n2]⟩ :: rest ∧ Carried net x [n1, n2] ∧
      (net.circuit n1.circuit).port = 0 ∧ (net.circuit n2.circuit).port = 0 := by
  obtain ⟨y, hy⟩ := exists_mem_of_ne_nil _ hint
  obtain ⟨⟨t, ht, rfl⟩, hports⟩ := net.mem_internalNodes.mp hy
  obtain ⟨d, hd, hdname⟩ := h.holds.cover t ht
  have hoff : ¬OnPort net d := by
    rintro ⟨u, hu, hport⟩
    obtain ⟨hu, hname⟩ := ((h.holds.entry d hd).2.2 u).mp hu
    exact hport (hports u hu (hname.trans hdname))
  obtain ⟨e, rest, hroot⟩ := exists_cons_of_ne_nil (ne_nil_of_mem hd)
  have he : e ∈ list.root := hroot ▸ mem_cons_self
  have heoff : ¬OnPort net e := by
    intro hon
    have hpair := h.ordered.pairwise
    rw [hroot] at hd hpair
    rcases mem_cons.mp hd with rfl | hd
    · exact hoff hon
    · exact hoff ((pairwise_cons.mp hpair).1 d hd hon)
  obtain ⟨hne, hnodup, hmem⟩ := h.holds.entry e he
  have hport := fun u hu => not_not.mp fun hport => heoff ⟨u, hu, hport⟩
  have hcarried : Carried net e.name e.nodes := ⟨hnodup, hmem⟩
  obtain ⟨u, hu⟩ := exists_mem_of_ne_nil _ hne
  obtain ⟨hut, huname⟩ := (hmem u).mp hu
  obtain ⟨a, b, hab⟩ := hnet.paired u hut fun hpac => hnet.pac u hut hpac (hport u hu)
  rw [huname] at hab
  have hlen := ((hcarried.perm hnet.nodup).symm.trans (hab.perm hnet.nodup)).length_eq
  obtain ⟨n1, n2, hnodes⟩ := length_eq_two.mp hlen
  refine ⟨e.name, n1, n2, rest, ?_, hnodes ▸ hcarried, ?_, ?_⟩
  · rw [hroot, ← hnodes]
  · exact hport n1 (by simp [hnodes])
  · exact hport n2 (by simp [hnodes])

/-! ## Between two points -/

/-- A net as `insertConnections` leaves it. -/
structure Ready (net : Net) : Prop where
  joinable : Joinable net
  counts : Counts net
  drop_nil : net.drop = []
  original : ∀ c ∈ net.root, (net.circuit c).original ∧ ∀ k, c ≠ .reduced k

/-- The net on the way from the prepared net `start`. -/
structure Underway (start net : Net) : Prop where
  joinable : Joinable net
  counts : Counts net
  originals : net.originals.Perm start.root
  circuit : ∀ c ∈ start.root, net.circuit c = start.circuit c
  name : ∀ t, t.circuit ∈ start.root → net.name t = start.name t
  reduced : ∀ c ∈ net.root, c ∈ start.root ∨
    (∃ k < net.reduced, c = .reduced k) ∧ (net.circuit c).original = false ∧
      (net.circuit c).port = 0
  dropped : ∀ c ∈ net.drop, (net.circuit c).port = 0

section Underway

variable {start net net' : Net}

theorem Underway.mem_start (h : Underway start net) {c : Id} :
    c ∈ start.root ↔ (c ∈ net.root ∧ (net.circuit c).original) ∨ c ∈ net.drop := by
  rw [← h.originals.mem_iff, Net.originals, mem_append, mem_filter]

theorem Underway.not_mem_root (h : Underway start net) (hs : Ready start) {c : Id}
    (hc : c ∈ net.drop) : c ∉ net.root := by
  intro hroot
  have hstart := h.mem_start.mpr (.inr hc)
  have horiginal := (hs.original c hstart).1
  rw [← h.circuit c hstart] at horiginal
  have hnodup := h.originals.nodup_iff.mpr hs.joinable.nodup
  exact disjoint_of_nodup_append hnodup (mem_filter.mpr ⟨hroot, horiginal⟩) hc

theorem Underway.new (h : Underway start net) (hs : Ready start) :
    .reduced net.reduced ∉ net.root := by
  intro hmem
  rcases h.reduced _ hmem with hstart | ⟨⟨k, hk, heq⟩, -⟩
  · exact (hs.original _ hstart).2 _ rfl
  · cases heq
    exact hk.false

theorem Underway.joins {n1 n2 : Terminal} {x : String} (h : Underway start net) (hs : Ready start)
    (hj : Joins net net' n1 n2) (hc : Candidates net n1 n2 x) : Underway start net' := by
  have hold : ∀ c ∈ start.root, c ≠ .reduced net.reduced := fun c hstart =>
    (hs.original c hstart).2 _
  have hcircuit : ∀ c ∈ start.root, net'.circuit c = start.circuit c := fun c hstart => by
    rw [hj.circuit c (hold c hstart), h.circuit c hstart]
  constructor
  case joinable => exact hj.joinable hc h.joinable
  case counts => exact hj.counts h.counts
  case originals => exact hj.originals.trans h.originals
  case circuit => exact hcircuit
  case name => exact fun t ht => (hj.name t (hold _ ht)).trans (h.name t ht)
  case reduced =>
    intro c hmem
    rw [hj.reduced]
    rcases (hj.mem c).mp hmem with rfl | ⟨hroot, -⟩
    · rw [hj.result]
      exact .inr ⟨⟨_, Nat.lt_succ_self _, rfl⟩, rfl, rfl⟩
    · have hne : c ≠ .reduced net.reduced := fun heq => hc.new (heq ▸ hroot)
      rcases h.reduced c hroot with hstart | ⟨⟨k, hk, rfl⟩, hrest⟩
      · exact .inl hstart
      · rw [hj.circuit _ hne]
        exact .inr ⟨⟨k, hk.trans (Nat.lt_succ_self _), rfl⟩, hrest⟩
  case dropped =>
    intro c hdrop
    have hstart := (hj.originals.trans h.originals).mem_iff.mp (mem_append_right _ hdrop)
    rw [hj.circuit c (hold c hstart)]
    by_contra hport
    rcases h.mem_start.mp hstart with ⟨hroot, horiginal⟩ | hbefore
    · have hmem : c ∈ net'.root := by
        refine (hj.mem c).mpr (.inr ⟨hroot, ?_, ?_⟩)
        · rintro rfl
          exact hport hc.port1
        · rintro rfl
          exact hport hc.port2
      have hnodup := (hj.originals.trans h.originals).nodup_iff.mpr hs.joinable.nodup
      rw [← hj.circuit c (hold c hstart)] at horiginal
      exact disjoint_of_nodup_append hnodup (mem_filter.mpr ⟨hmem, horiginal⟩) hdrop
    · exact hport (h.dropped c hbefore)

end Underway

/-! ## Restoring -/

/-- Net and list `s` come from `net`; the circuits `present` are registered, and
the rest is as it should be with them. -/
structure Shifted (net : Net) (present : Id → Prop) (s : Net × NodeList) : Prop where
  circuit : s.1.circuit = net.circuit
  name : s.1.name = net.name
  drop : s.1.drop = net.drop
  nodup : s.1.root.Nodup
  mem : ∀ d, d ∈ s.1.root ↔ present d
  counts : Counts s.1
  lists : Lists s.1 (· ∈ s.1.terminals) s.2

section Restoring

variable {net : Net} {present : Id → Prop} {s : Net × NodeList} {c : Id}

theorem Shifted.of_iff {present' : Id → Prop} (h : Shifted net present s)
    (hp : ∀ d, present' d ↔ present d) : Shifted net present' s := by
  obtain rfl : present' = present := funext fun d => propext (hp d)
  exact h

theorem mem_terminals_cons {net' : Net} (hroot : net'.root = c :: net.root)
    (hcircuit : net'.circuit = net.circuit) (t : Terminal) :
    t ∈ net'.terminals ↔ t ∈ net.terminals ∨ t ∈ net.terminalsOf c := by
  rw [net'.mem_terminals, net.mem_terminals, net.mem_terminalsOf, hroot, hcircuit, mem_cons]
  constructor
  · rintro ⟨rfl | hc, hi⟩
    · exact .inr ⟨rfl, hi⟩
    · exact .inl ⟨hc, hi⟩
  · rintro (⟨hc, hi⟩ | ⟨rfl, hi⟩)
    · exact ⟨.inr hc, hi⟩
    · exact ⟨.inl rfl, hi⟩

theorem Shifted.insert (h : Shifted net present s) (hc : ¬present c)
    (hport : (net.circuit c).port = 0)
    (hregister : ∀ net' : Net, net'.register (net.circuit c) = net.circuit c)
    (hpac : ¬((net.circuit c).type = .pac ∧ (net.circuit c).subcircuit = "")) :
    Shifted net (fun d => present d ∨ d = c) (s.1.insertCircuit c, s.2.insert s.1 c) := by
  have hroot : c ∉ s.1.root := fun hmem => hc ((h.mem c).mp hmem)
  have hcircuit : (s.1.insertCircuit c).circuit = s.1.circuit := by
    rw [insertCircuit_circuit, h.circuit, hregister, Function.update_eq_self]
  constructor
  case circuit => exact hcircuit.trans h.circuit
  case name => exact h.name
  case drop => exact h.drop
  case nodup => exact nodup_cons.mpr ⟨hroot, h.nodup⟩
  case mem =>
    intro d
    rw [insertCircuit_root, mem_cons, h.mem, or_comm]
  case counts =>
    refine h.counts.insertCircuit hroot ?_
    rw [h.circuit, hregister]
    exact iff_of_false (not_not.mpr hport) hpac
  case lists =>
    have hinsert := h.lists.insert (c := c) (by rw [h.circuit, hport]) fun t ht hold =>
      hroot ((s.1.mem_terminalsOf.mp ht).1 ▸ (s.1.mem_terminals.mp hold).1)
    refine (hinsert.of_iff (mem_terminals_cons (insertCircuit_root _ _) hcircuit)).congr
      (fun _ _ => rfl) (fun t _ => ?_) fun t _ => ?_
    · rw [hcircuit]
    · rw [hcircuit]

theorem Shifted.remove (h : Shifted net present s) (hc : present c)
    (horiginal : (net.circuit c).original = false) (hport : (net.circuit c).port = 0) :
    Shifted net (fun d => present d ∧ d ≠ c) (s.1.removeCircuit c true, s.2.remove s.1 c) := by
  have hroot := (h.mem c).mpr hc
  constructor
  case circuit => exact h.circuit
  case name => exact h.name
  case drop =>
    show (if _ then _ else s.1.drop) = _
    rw [h.circuit, horiginal, if_neg (by simp), h.drop]
  case nodup => exact h.nodup.erase c
  case mem =>
    intro d
    rw [mem_removeCircuit h.nodup, h.mem]
  case counts => exact h.counts.removeCircuit hroot true
  case lists =>
    have hremove := h.lists.remove (by rw [h.circuit, hport]) fun t ht => by
      obtain ⟨rfl, hi⟩ := s.1.mem_terminalsOf.mp ht
      exact s.1.mem_terminals.mpr ⟨hroot, hi⟩
    refine (hremove.of_iff fun t => ?_).congr (fun _ _ => rfl) (fun _ _ => rfl) fun _ _ => rfl
    rw [(s.1.removeCircuit c true).mem_terminals, mem_removeCircuit h.nodup, s.1.mem_terminals]
    exact and_right_comm

theorem Shifted.insertAll : ∀ (cs : List Id) {present : Id → Prop} {s : Net × NodeList},
    Shifted net present s → cs.Nodup →
    (∀ c ∈ cs, ¬present c ∧ (net.circuit c).port = 0 ∧
      (∀ net' : Net, net'.register (net.circuit c) = net.circuit c) ∧
      ¬((net.circuit c).type = .pac ∧ (net.circuit c).subcircuit = "")) →
    Shifted net (fun d => present d ∨ d ∈ cs) (cs.foldl (fun s c =>
      (s.1.insertCircuit c, s.2.insert s.1 c)) s)
  | [], _, _, h, _, _ => h.of_iff fun _ => by simp
  | c :: cs, present, s, h, hnodup, hcs => by
    obtain ⟨hnot, hnodup⟩ := nodup_cons.mp hnodup
    obtain ⟨hc, hport, hregister, hpac⟩ := hcs c mem_cons_self
    have hrest := Shifted.insertAll cs (h.insert hc hport hregister hpac) hnodup fun d hd => by
      obtain ⟨hd', hd''⟩ := hcs d (mem_cons_of_mem _ hd)
      refine ⟨?_, hd''⟩
      rintro (hpresent | rfl)
      · exact hd' hpresent
      · exact hnot hd
    refine hrest.of_iff fun d => ?_
    rw [mem_cons, or_assoc]

theorem Shifted.removeAll : ∀ (cs : List Id) {present : Id → Prop} {s : Net × NodeList},
    Shifted net present s → cs.Nodup →
    (∀ c ∈ cs, present c ∧ ((net.circuit c).original = false → (net.circuit c).port = 0)) →
    Shifted net (fun d => present d ∧ (d ∈ cs → (net.circuit d).original))
      (cs.foldl (fun s c => if (s.1.circuit c).original then s
        else (s.1.removeCircuit c true, s.2.remove s.1 c)) s)
  | [], _, _, h, _, _ => h.of_iff fun _ => by simp
  | c :: cs, present, s, h, hnodup, hcs => by
    obtain ⟨hnot, hnodup⟩ := nodup_cons.mp hnodup
    obtain ⟨hc, hport⟩ := hcs c mem_cons_self
    have hrest := fun d hd => hcs d (mem_cons_of_mem _ hd)
    rw [foldl_cons, h.circuit]
    by_cases horiginal : (net.circuit c).original
    · rw [if_pos horiginal]
      refine (Shifted.removeAll cs h hnodup hrest).of_iff fun d => and_congr_right fun _ => ?_
      rw [mem_cons]
      refine ⟨fun hd hmem => hd (.inr hmem), ?_⟩
      rintro hd (rfl | hmem)
      · exact horiginal
      · exact hd hmem
    · have hfalse := Bool.eq_false_iff.mpr horiginal
      rw [if_neg horiginal]
      have hremoved := Shifted.removeAll cs (h.remove hc hfalse (hport hfalse)) hnodup
        fun d hd => ⟨⟨(hrest d hd).1, fun heq => hnot (heq ▸ hd)⟩, (hrest d hd).2⟩
      refine hremoved.of_iff fun d => ?_
      rw [and_assoc, mem_cons]
      refine and_congr_right fun _ => ⟨fun hd => ⟨?_, fun hmem => hd (.inr hmem)⟩, ?_⟩
      · rintro rfl
        exact horiginal (hd (.inl rfl))
      · rintro ⟨hne, hd⟩ (heq | hmem)
        · exact absurd heq hne
        · exact hd hmem

end Restoring

/-- The prepared net is back, with a list of its nodes. -/
structure Restored (start net : Net) (list : NodeList) : Prop where
  root : net.root.Perm start.root
  drop_nil : net.drop = []
  circuit : ∀ c ∈ start.root, net.circuit c = start.circuit c
  name : ∀ t, t.circuit ∈ start.root → net.name t = start.name t
  counts : Counts net
  lists : Lists net (· ∈ net.terminals) list

structure Steady (start : Net) (s : Joining) : Prop where
  underway : Underway start s.net
  lists : Lists s.net (· ∈ s.net.terminals) s.list
  ports : s.ports = 2 * s.net.internalNodes.length + s.net.nPorts

section Points

variable {start net : Net} {list : NodeList} {s : Joining}

/-- **The end of a point**: what was put aside is back, what was made is gone. -/
theorem Steady.restore (h : Steady start s) (hs : Ready start) :
    Restored start s.restore.1 s.restore.2 := by
  have hu := h.underway
  have hnodup := hu.originals.nodup_iff.mpr hs.joinable.nodup
  have hback := Shifted.insertAll s.net.drop
    (⟨rfl, rfl, rfl, hu.joinable.nodup, fun _ => Iff.rfl, hu.counts, h.lists⟩ :
      Shifted s.net (· ∈ s.net.root) (s.net, s.list))
    (List.Nodup.of_append_right hnodup) fun c hc => by
      have hstart := hu.mem_start.mpr (.inr hc)
      have hcircuit := hu.circuit c hstart
      have hport := hu.dropped c hc
      refine ⟨hu.not_mem_root hs hc, hport, fun net' => ?_, fun hpac => ?_⟩
      · rw [hcircuit, hs.counts.register hstart]
      · rw [hcircuit] at hpac hport
        exact (hs.counts.port c hstart).mpr hpac hport
  rw [Joining.restore, getDroppedCircuits]
  dsimp only
  generalize s.net.drop.foldl (fun (s : Net × NodeList) c =>
    (s.1.insertCircuit c, s.2.insert s.1 c)) (s.net, s.list) = back at hback
  let net₁ : Net := { back.1 with drop := [] }
  have hshift : Shifted net₁ (· ∈ net₁.root) (net₁, back.2) :=
    ⟨rfl, rfl, rfl, hback.nodup, fun _ => Iff.rfl,
      hback.counts.congr (fun _ _ => rfl) rfl rfl rfl rfl,
      hback.lists.congr (fun _ _ => rfl) (fun _ _ => rfl) fun _ _ => rfl⟩
  have hgone := Shifted.removeAll net₁.root hshift hback.nodup fun c hc => by
    refine ⟨hc, fun horiginal => ?_⟩
    rw [hback.circuit] at horiginal ⊢
    rcases (hback.mem c).mp hc with hroot | hdrop
    · rcases hu.reduced c hroot with hstart | ⟨-, -, hport⟩
      · rw [hu.circuit c hstart, (hs.original c hstart).1] at horiginal
        cases horiginal
      · exact hport
    · exact hu.dropped c hdrop
  rw [deleteUnusedCircuits]
  constructor
  case root =>
    refine (perm_ext_iff_of_nodup hgone.nodup hs.joinable.nodup).mpr fun c => ?_
    rw [hgone.mem, hu.mem_start]
    rw [hback.mem, hback.circuit]
    constructor
    · rintro ⟨hroot | hdrop, horiginal⟩
      · exact .inl ⟨hroot, horiginal (.inl hroot)⟩
      · exact .inr hdrop
    · rintro (⟨hroot, horiginal⟩ | hdrop)
      · exact ⟨.inl hroot, fun _ => horiginal⟩
      · have hstart := hu.mem_start.mpr (.inr hdrop)
        exact ⟨.inr hdrop, fun _ => by rw [hu.circuit c hstart, (hs.original c hstart).1]⟩
  case drop_nil => exact hgone.drop
  case circuit =>
    intro c hc
    rw [hgone.circuit]
    rw [hback.circuit, hu.circuit c hc]
  case name =>
    intro t ht
    rw [hgone.name]
    show back.1.name t = _
    rw [hback.name, hu.name t ht]
  case counts => exact hgone.counts
  case lists => exact hgone.lists

/-- **The start of a point**. -/
theorem Restored.steady (h : Restored start net list) (hs : Ready start) :
    Steady start (.start net list) := by
  have hmem : ∀ d, d ∈ net.root ↔ d ∈ start.root := fun d => h.root.mem_iff
  have hjoinable : Joinable net := hs.joinable.of_same (h.root.nodup_iff.mpr hs.joinable.nodup)
    hmem h.circuit h.name
  have hcounts : Counts (Joining.start net list).net :=
    h.counts.congr (fun _ _ => rfl) rfl rfl rfl rfl
  constructor
  case underway =>
    refine ⟨hjoinable.of_same hjoinable.nodup (fun _ => Iff.rfl) (fun _ _ => rfl) fun _ _ => rfl,
      hcounts, ?_, h.circuit, h.name, fun c hc => .inl ((hmem c).mp hc), fun c hc => ?_⟩
    · show (net.root.filter _ ++ net.drop).Perm start.root
      rw [h.drop_nil, append_nil, filter_eq_self.mpr]
      · exact h.root
      · intro c hc
        have hstart := (hmem c).mp hc
        show (net.circuit c).original
        rw [h.circuit c hstart, (hs.original c hstart).1]
    · have hc : c ∈ net.drop := hc
      rw [h.drop_nil] at hc
      exact absurd hc not_mem_nil
  case lists => exact h.lists.congr (fun _ _ => rfl) (fun _ _ => rfl) fun _ _ => rfl
  case ports =>
    show (net.countNodes : ℤ) = 2 * net.internalNodes.length + net.nPorts
    rw [hjoinable.countNodes_eq, h.counts.ports]
    rfl

/-- **One join**: the head of the list is an internal node, and the state after
the join is as good as before. -/
theorem Steady.next (h : Steady start s) (hs : Ready start) (hports : s.ports > s.net.nPorts) :
    ∃ x n1 n2 rest s', s.list.root = ⟨x, [n1, n2]⟩ :: rest ∧ Candidates s.net n1 n2 x ∧
      s.next = some s' ∧ Steady start s' ∧
      s.net.internalNodes.length = s'.net.internalNodes.length + 1 := by
  have hint : s.net.internalNodes ≠ [] := by
    intro hnil
    have := h.ports
    rw [hnil, length_nil] at this
    omega
  obtain ⟨x, n1, n2, rest, hroot, hcarried, hport1, hport2⟩ := h.lists.head h.underway.joinable hint
  have hc : Candidates s.net n1 n2 x := ⟨hcarried, hport1, hport2, h.underway.new hs⟩
  have hsorted : s.list.sortedNodes = some (n1, n2) := by rw [NodeList.sortedNodes, hroot]
  obtain ⟨net', list', hreduce, hj, hlists⟩ := reduce_spec h.lists hsorted
    h.underway.joinable.nodup hc.new hc.mem1.1 hc.mem2.1 hport1 hport2
  have hless := hj.internalNodes hc
  refine ⟨x, n1, n2, rest, ⟨net', list', s.ports - 2⟩, hroot, hc, ?_,
    ⟨h.underway.joins hs hj hc, hlists, ?_⟩, hless⟩
  · rw [Joining.next, hreduce, Option.map_some]
  · show s.ports - 2 = 2 * (net'.internalNodes.length : ℤ) + net'.nPorts
    rw [h.ports, hless, hj.nPorts]
    push_cast
    ring

/-- **The loop over the joins**: it makes as many as there are internal nodes. -/
theorem Steady.reduceAll (hs : Ready start) : ∀ (fuel : ℕ) {s : Joining}, Steady start s →
    s.net.internalNodes.length < fuel →
    ∃ s', reduceAll fuel s = some (s', s.net.internalNodes.length) ∧ Steady start s' ∧
      ¬s'.ports > s'.net.nPorts
  | 0, _, _, hfuel => absurd hfuel (Nat.not_lt_zero _)
  | fuel + 1, s, h, hfuel => by
    rw [Network.reduceAll]
    split
    case isTrue hports =>
      obtain ⟨-, -, -, -, s₁, -, -, hnext, hsteady, hless⟩ := h.next hs hports
      obtain ⟨s', hrun, hsteady', hend⟩ := Steady.reduceAll hs fuel hsteady (by omega)
      refine ⟨s', ?_, hsteady', hend⟩
      rw [hnext, Option.bind_some, hrun, Option.map_some, hless]
    case isFalse hports =>
      have hzero : s.net.internalNodes.length = 0 := by
        have := h.ports
        omega
      exact ⟨s, by rw [hzero], h, hports⟩

theorem Ready.restored (hs : Ready start) :
    Restored start start ((NodeList.create start).sort start) := by
  refine ⟨.refl _, hs.drop_nil, fun _ _ => rfl, fun _ _ => rfl, hs.counts,
    sort_lists hs.joinable.nodup ?_⟩
  intro e he ⟨t, ht, hport⟩
  obtain ⟨hne, hnodup, hmem⟩ := (create_holds hs.joinable.nodup).entry e he
  obtain ⟨htm, hname⟩ := (hmem t).mp ht
  have hcarried : Carried start e.name e.nodes := ⟨hnodup, hmem⟩
  by_cases hpac : e.name = "PacGround"
  · obtain ⟨u, nodes, hnodes⟩ := exists_cons_of_ne_nil hne
    obtain ⟨hu, huname⟩ := (hmem u).mp (hnodes ▸ mem_cons_self)
    exact ⟨u, by simp [hnodes], hs.joinable.pac u hu (huname.trans hpac)⟩
  · obtain ⟨a, b, hab⟩ := hs.joinable.paired t htm (hname ▸ hpac)
    rw [hname] at hab
    have hlen : e.nodes.length = 2 := ((hcarried.perm hs.joinable.nodup).symm.trans
      (hab.perm hs.joinable.nodup)).length_eq
    refine ⟨t, ?_, hport⟩
    rwa [take_of_length_le hlen.le]

theorem Reachable.steady (hs : Ready start) {s : Joining} (h : Reachable start s) :
    Steady start s := by
  induction h with
  | start => exact hs.restored.steady hs
  | @join s s' _ hports hnext ih =>
    obtain ⟨-, -, -, -, s₁, -, -, hnext₁, hsteady, -⟩ := ih.next hs hports
    rw [hnext₁] at hnext
    cases hnext
    exact hsteady
  | point _ _ ih => exact (ih.restore hs).steady hs

theorem Restored.internalNodes (h : Restored start net list) :
    net.internalNodes.length = start.internalNodes.length := by
  have hterm := terminals_congr (fun d => h.root.mem_iff) h.circuit
  have hmem : ∀ t ∈ start.terminals, t.circuit ∈ start.root := fun t ht =>
    (start.mem_terminals.mp ht).1
  refine List.Perm.length_eq ((perm_ext_iff_of_nodup net.nodup_internalNodes
    start.nodup_internalNodes).mpr fun x => ?_)
  rw [net.mem_internalNodes, start.mem_internalNodes]
  refine and_congr (exists_congr fun t => ?_) (forall_congr' fun t => ?_)
  · rw [hterm]
    exact and_congr_right fun ht => by rw [h.name t (hmem t ht)]
  · rw [hterm]
    refine forall_congr' fun ht => ?_
    rw [h.name t (hmem t ht), h.circuit _ (hmem t ht)]

/-- **All frequency points**. -/
theorem frequencyPoints_restored (hs : Ready start) {fuel : ℕ}
    (hfuel : start.internalNodes.length < fuel) : ∀ k, ∃ net list,
      frequencyPoints fuel k (start, (NodeList.create start).sort start) = some (net, list) ∧
      Restored start net list
  | 0 => ⟨_, _, rfl, hs.restored⟩
  | k + 1 => by
    obtain ⟨net, list, hrun, hrestored⟩ := frequencyPoints_restored hs hfuel k
    have hsteady := hrestored.steady hs
    have hinternal := hrestored.internalNodes.trans_lt hfuel
    obtain ⟨s', hall, hsteady', -⟩ := hsteady.reduceAll hs fuel hinternal
    refine ⟨_, _, ?_, hsteady'.restore hs⟩
    rw [frequencyPoints, hrun, Option.bind_some, frequencyPoint, hall, Option.map_some]

end Points

/-! ## From the netlist on -/

theorem Netlist.ready (net : Netlist) (hnames : net.UserNames) (gnd : Option Id) :
    Ready (net.prepared gnd) := by
  obtain ⟨g, hg, hground⟩ := net.ground
  have hgrounded := net.prepared_grounded hnames hg ((hground g hg).mpr rfl) gnd
  have hext := extends_of_run hgrounded.run (net.removeGround_fresh hnames g)
  constructor
  case joinable => exact hgrounded.joinable
  case counts => exact hext.counts (net.counts.removeCircuit hg false)
  case drop_nil =>
    rw [hext.drop]
    show (if _ then _ else net.drop) = []
    rw [if_neg (by simp), net.drop_nil]
  case original =>
    intro c hc
    rcases hext.new c hc with hold | ⟨-, horiginal, i, rfl⟩
    · obtain ⟨⟨i, rfl⟩, horiginal⟩ := net.original c (mem_of_mem_erase hold)
      rw [(hext.old _ hold).2]
      exact ⟨horiginal, by simp⟩
    · exact ⟨horiginal, by simp⟩

/-- **The reduction never gets stuck**: in every state with more nodes than ports
the first entry is an internal node with two nodes on circuits that are no
ports; and from every state the loop ends after as many joins as there are
internal nodes. -/
theorem reduce_never_stuck (net : Netlist) (hnames : net.UserNames) (gnd : Option Id) :
    ∀ s, Reachable (net.prepared gnd) s →
      (s.ports > s.net.nPorts → ∃ x n1 n2 rest, s.list.root = ⟨x, [n1, n2]⟩ :: rest ∧
        x ∈ s.net.internalNodes ∧ (s.net.carriers x).Perm [n1, n2] ∧
        (s.net.circuit n1.circuit).port = 0 ∧ (s.net.circuit n2.circuit).port = 0 ∧
        s.list.sortedNodes = some (n1, n2) ∧ s.next ≠ none) ∧
      ∀ fuel, s.net.internalNodes.length < fuel →
        ∃ s', reduceAll fuel s = some (s', s.net.internalNodes.length) := by
  intro s hreach
  have hs := net.ready hnames gnd
  have hsteady := hreach.steady hs
  constructor
  · intro hports
    obtain ⟨x, n1, n2, rest, s', hroot, hc, hnext, -, -⟩ := hsteady.next hs hports
    refine ⟨x, n1, n2, rest, hroot, ?_, hc.carried.perm hsteady.underway.joinable.nodup, hc.port1,
      hc.port2, by rw [NodeList.sortedNodes, hroot], by simp [hnext]⟩
    refine s.net.mem_internalNodes.mpr ⟨⟨n1, hc.mem1⟩, fun t ht hname => ?_⟩
    rcases mem_pair.mp ((hc.carried.mem t).mpr ⟨ht, hname⟩) with rfl | rfl
    · exact hc.port1
    · exact hc.port2
  · intro fuel hfuel
    obtain ⟨s', hrun, -⟩ := hsteady.reduceAll hs fuel hfuel
    exact ⟨s', hrun⟩

theorem reduce_never_stuck_fanOut :
    fanOut.UserNames ∧ ∀ s, Reachable (fanOut.prepared none) s →
      (s.ports > s.net.nPorts → ∃ x n1 n2 rest, s.list.root = ⟨x, [n1, n2]⟩ :: rest ∧
        x ∈ s.net.internalNodes ∧ (s.net.carriers x).Perm [n1, n2] ∧
        (s.net.circuit n1.circuit).port = 0 ∧ (s.net.circuit n2.circuit).port = 0 ∧
        s.list.sortedNodes = some (n1, n2) ∧ s.next ≠ none) ∧
      ∀ fuel, s.net.internalNodes.length < fuel →
        ∃ s', reduceAll fuel s = some (s', s.net.internalNodes.length) :=
  ⟨fanOut_userNames, reduce_never_stuck fanOut fanOut_userNames none⟩

/-- **Each frequency point leaves the network as it found it**: after any number
of points the circuits are those of the prepared net, nothing is put aside, the
node list has the nodes of every name, and the counters are right. -/
theorem frequencyPoints_unchanged (net : Netlist) (hnames : net.UserNames) (gnd : Option Id)
    (points fuel : ℕ) (hfuel : (net.prepared gnd).internalNodes.length < fuel) :
    ∃ net' list',
      frequencyPoints fuel points
          (net.prepared gnd, (NodeList.create (net.prepared gnd)).sort (net.prepared gnd)) =
        some (net', list') ∧
      net'.root.Perm (net.prepared gnd).root ∧ net'.drop = [] ∧ (∀ k, .reduced k ∉ net'.root) ∧
      (∀ c ∈ (net.prepared gnd).root, net'.circuit c = (net.prepared gnd).circuit c ∧
        ∀ i, net'.name ⟨c, i⟩ = (net.prepared gnd).name ⟨c, i⟩) ∧
      (list'.root.map Entry.name).Nodup ∧
      (∀ e ∈ list'.root, e.nodes.Perm ((net.prepared gnd).carriers e.name)) ∧
      (∀ t ∈ (net.prepared gnd).terminals, ∃ e ∈ list'.root, e.name = (net.prepared gnd).name t) ∧
      net'.nPorts = net'.countPorts ∧ net'.nSources = net'.countSources := by
  have hs := net.ready hnames gnd
  generalize net.prepared gnd = start at hs hfuel
  obtain ⟨net', list', hrun, h⟩ := frequencyPoints_restored hs hfuel points
  have hterm := terminals_congr (fun d => h.root.mem_iff) h.circuit
  have hmem : ∀ t ∈ start.terminals, t.circuit ∈ start.root := fun t ht =>
    (start.mem_terminals.mp ht).1
  refine ⟨net', list', hrun, h.root, h.drop_nil, ?_, ?_, h.lists.holds.nodup, ?_, ?_,
    h.counts.ports, h.counts.sources⟩
  · exact fun k hk => (hs.original _ (h.root.mem_iff.mp hk)).2 k rfl
  · exact fun c hc => ⟨h.circuit c hc, fun i => h.name ⟨c, i⟩ hc⟩
  · intro e he
    obtain ⟨-, hnodup, hnodes⟩ := h.lists.holds.entry e he
    have hcarried : Carried start e.name e.nodes := by
      refine ⟨hnodup, fun t => ?_⟩
      rw [hnodes, hterm]
      exact and_congr_right fun ht => by rw [h.name t (hmem t ht)]
    exact (hcarried.perm hs.joinable.nodup).symm
  · intro t ht
    obtain ⟨e, he, hname⟩ := h.lists.holds.cover t ((hterm t).mpr ht)
    exact ⟨e, he, hname.trans (h.name t (hmem t ht))⟩

/-- Three points of the example, with its eleven internal nodes. -/
theorem frequencyPoints_unchanged_fanOut :
    (fanOut.prepared none).internalNodes.length < 12 ∧ ∃ net' list',
      frequencyPoints 12 3
          (fanOut.prepared none,
            (NodeList.create (fanOut.prepared none)).sort (fanOut.prepared none)) =
        some (net', list') ∧
      net'.root.Perm (fanOut.prepared none).root ∧ net'.drop = [] ∧
      (∀ k, .reduced k ∉ net'.root) ∧
      (∀ c ∈ (fanOut.prepared none).root, net'.circuit c = (fanOut.prepared none).circuit c ∧
        ∀ i, net'.name ⟨c, i⟩ = (fanOut.prepared none).name ⟨c, i⟩) ∧
      (list'.root.map Entry.name).Nodup ∧
      (∀ e ∈ list'.root, e.nodes.Perm ((fanOut.prepared none).carriers e.name)) ∧
      (∀ t ∈ (fanOut.prepared none).terminals,
        ∃ e ∈ list'.root, e.name = (fanOut.prepared none).name t) ∧
      net'.nPorts = net'.countPorts ∧ net'.nSources = net'.countSources := by
  have hfuel : (fanOut.prepared none).internalNodes.length < 12 := by decide +kernel
  exact ⟨hfuel, frequencyPoints_unchanged fanOut fanOut_userNames none 3 12 hfuel⟩

end Qucs.Network
