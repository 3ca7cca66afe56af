/-
# Every run of joins keeps the port waves

The meaning of a net is the set of its wave solutions. Every circuit relates
the waves at its ports by `b = S a`, the two terminals of an internal node
exchange their waves, and what is left visible are the waves at the port nodes
(`PortWaves`).

* Merge n gs r: r replaces the circuits gs, whose node n is tied
* merge_connected, merge_interconnect: both joins are merges when their denominator
  is not 0
* Join.merge: so one pass of the loop is a merge
* Merge.portWaves: a merge keeps the port waves
* Reduces.samePorts: and so does any sequence of joins
-/
import Qucs.Lib.Multiport
import Qucs.Spar.Join

namespace Qucs.Spar

open Circuit Sum
open List (mem_map mem_cons range append_assoc map_cons)

open Lib.Multiport (Admits denominator eliminate block admits_block)

variable {ι K : Type*}

/-! ## Waves -/

structure Wave (K : Type*) where
  node : String
  a : K
  b : K

def waves (ports : List ι) (node : ι → String) (a b : ι → K) : List (Wave K) :=
  ports.map fun i => ⟨node i, a i, b i⟩

/-- Two terminals of one node exchange their waves. -/
def Exchange (x y : Wave K) : Prop :=
  x.node = y.node → x.a = y.b ∧ y.a = x.b

/-- Every joined pair of terminals exchanges its waves. -/
def Tied (w : List (Wave K)) : Prop := w.Pairwise Exchange

/-- At the nodes with a single terminal the waves are `α` and `β`. -/
def AtPorts (α β : String → K) (w : List (Wave K)) : Prop :=
  ∀ x ∈ w, (w.map Wave.node).count x.node = 1 → x.a = α x.node ∧ x.b = β x.node

def names (net : List (Circuit K)) : List String := net.flatMap Circuit.names

@[simp] theorem names_cons (c : Circuit K) (net : List (Circuit K)) :
    names (c :: net) = c.names ++ names net := rfl

theorem names_append (net net' : List (Circuit K)) :
    names (net ++ net') = names net ++ names net' := by
  simp [names]

variable {net net' : List (Circuit K)}

theorem names_perm (h : net.Perm net') : (names net).Perm (names net') := h.flatMap_right _

/-! ### Ties and port waves of permuted lists -/

variable {x y : Wave K}

theorem Exchange.symm (h : Exchange x y) : Exchange y x := by
  intro e
  exact (h e.symm).symm

variable {w w' : List (Wave K)}

theorem Tied.perm (h : Tied w) (hp : w.Perm w') : Tied w' := hp.pairwise h Exchange.symm

theorem AtPorts.perm {α β : String → K} (h : AtPorts α β w) (hp : w.Perm w') : AtPorts α β w' := by
  intro x hx hc
  apply h x (hp.mem_iff.mpr hx)
  rwa [(hp.map Wave.node).count_eq]

variable {n : String}

/-- Two further terminals of one node, used by no other, take part in no port
and in no tie but their own. -/
theorem tied_cons_cons (hx : x.node = n) (hy : y.node = n) (hw : n ∉ w.map Wave.node) :
    Tied (x :: y :: w) ↔ (x.a = y.b ∧ y.a = x.b) ∧ Tied w := by
  have apart : ∀ z ∈ w, ∀ v, v.node = n → Exchange v z := by
    intro z hz v hv e
    exact absurd (mem_map.mpr ⟨z, hz, e.symm.trans hv⟩) hw
  constructor
  · intro h
    obtain ⟨hxs, hys, hws⟩ : (∀ z ∈ y :: w, Exchange x z) ∧ (∀ z ∈ w, Exchange y z) ∧ Tied w := by
      simpa [Tied, List.pairwise_cons] using h
    exact ⟨hxs y List.mem_cons_self (hx.trans hy.symm), hws⟩
  · rintro ⟨hxy, hws⟩
    refine List.Pairwise.cons ?_ (List.Pairwise.cons (fun z hz => apart z hz y hy) hws)
    intro z hz
    rcases mem_cons.mp hz with rfl | hz
    · exact fun _ => hxy
    · exact apart z hz x hx

theorem atPorts_cons_cons {α β : String → K} (hx : x.node = n) (hy : y.node = n)
    (hw : n ∉ w.map Wave.node) : AtPorts α β (x :: y :: w) ↔ AtPorts α β w := by
  have twice : ((x :: y :: w).map Wave.node).count n = 2 := by
    simp [hx, hy, List.count_eq_zero_of_not_mem hw]
  have once : ∀ z ∈ w,
      ((x :: y :: w).map Wave.node).count z.node = (w.map Wave.node).count z.node := by
    intro z hz
    have hne : n ≠ z.node := by
      rintro rfl
      exact hw (mem_map.mpr ⟨z, hz, rfl⟩)
    simp [hx, hy, hne]
  constructor
  · intro h z hz hc
    exact h z (by simp [hz]) ((once z hz).trans hc)
  · intro h z hz hc
    rcases mem_cons.mp hz with rfl | hz
    · rw [hx, twice] at hc
      exact absurd hc (by decide)
    · rcases mem_cons.mp hz with rfl | hz
      · rw [hy, twice] at hc
        exact absurd hc (by decide)
      · exact h z hz ((once z hz).symm.trans hc)

/-! ### Ports and loops over ports -/

theorem Circuit.nodup_ports (c : Circuit K) : c.ports.Nodup := List.nodup_range

theorem Circuit.mem_ports {c : Circuit K} {k : ℕ} : k ∈ c.ports ↔ k < c.size := List.mem_range

theorem perm_cons_kept {ports : List ℕ} (hnd : ports.Nodup) {k : ℕ} (hk : k ∈ ports) :
    ports.Perm (k :: ports.filter fun j => ¬j = k) := by
  have h := List.perm_cons_erase hk
  rw [hnd.erase_eq_filter] at h
  simpa [bne, beq_eq_decide] using h

theorem map_range_getD {γ : Type*} (o : ι) (kept : List ι) (f : ι → γ) :
    (range kept.length).map (fun j => f (kept.getD j o)) = kept.map f := by
  apply List.ext_getElem
  · simp
  · intro j h₁ h₂
    have hj : j < kept.length := by simpa using h₂
    simp [hj]

theorem names_ofPorts (o : ι) (kept : List ι) (node : ι → String) (S : ι → ι → K) :
    (Circuit.ofPorts o kept node S).names = kept.map node :=
  map_range_getD o kept node

theorem nodeName_eq_some {t : Terminal} (h : nodeName net t = some n) :
    ∃ c, net[t.circuit]? = some c ∧ t.port < c.size ∧ c.node t.port = n := by
  unfold nodeName at h
  split at h
  · next c hc =>
    split at h
    · next hlt =>
      cases h
      exact ⟨c, hc, hlt, rfl⟩
    · cases h
  · cases h

theorem perm_eraseIdx_eraseIdx {l : List ι} {i j : ℕ} (hij : i < j) (hj : j < l.length) :
    l.Perm (l[i] :: l[j] :: (l.eraseIdx j).eraseIdx i) := by
  have hi : i < (l.eraseIdx j).length := by
    rw [List.length_eraseIdx_of_lt hj]
    omega
  have inner := (List.getElem_cons_eraseIdx_perm hi).symm
  rw [List.getElem_eraseIdx_of_lt _ hij] at inner
  exact ((List.getElem_cons_eraseIdx_perm hj).symm.trans (inner.cons _)).trans (.swap _ _ _)

theorem perm_eraseIdx_max_min {l : List ι} {i j : ℕ} {a b : ι} (hij : i ≠ j) (ha : l[i]? = some a)
    (hb : l[j]? = some b) : l.Perm (a :: b :: (l.eraseIdx (max i j)).eraseIdx (min i j)) := by
  obtain ⟨hi, rfl⟩ := List.getElem?_eq_some_iff.mp ha
  obtain ⟨hj, rfl⟩ := List.getElem?_eq_some_iff.mp hb
  rcases Nat.lt_or_gt_of_ne hij with h | h
  · rw [Nat.max_eq_right h.le, Nat.min_eq_left h.le]
    exact perm_eraseIdx_eraseIdx h hj
  · rw [Nat.max_eq_left h.le, Nat.min_eq_right h.le]
    exact (perm_eraseIdx_eraseIdx h hi).trans (.swap _ _ _)

/-! ## Solutions of a net -/

variable [Field K]

/-- The ports can carry these waves: `b = S a`. -/
def Carries (ports : List ι) (node : ι → String) (S : ι → ι → K) (w : List (Wave K)) : Prop :=
  ∃ a b, Admits ports S a b ∧ w = waves ports node a b

def Circuit.Carries (c : Circuit K) (w : List (Wave K)) : Prop :=
  Spar.Carries c.ports c.node c.S w

/-- The waves solve the equations of every circuit of the net. -/
def Solves : List (Circuit K) → List (Wave K) → Prop
  | [], w => w = []
  | c :: net, w => ∃ u v, w = u ++ v ∧ c.Carries u ∧ Solves net v

/-- `α` and `β` are the incoming and outgoing waves at the port nodes in some
simultaneous solution of all circuits' equations and all ties. -/
def PortWaves (net : List (Circuit K)) (α β : String → K) : Prop :=
  ∃ w, Solves net w ∧ Tied w ∧ AtPorts α β w

theorem Circuit.Carries.names_eq {c : Circuit K} (h : c.Carries w) : w.map Wave.node = c.names := by
  obtain ⟨a, b, -, rfl⟩ := h
  simp [waves, names]

theorem Solves.names_eq : ∀ {w : List (Wave K)}, Solves net w → w.map Wave.node = names net := by
  induction net with
  | nil =>
    intro w h
    cases h
    rfl
  | cons c net ih =>
    intro w h
    obtain ⟨u, v, rfl, hu, hv⟩ := h
    rw [List.map_append, hu.names_eq, ih hv, names_cons]

theorem solves_append : ∀ {w : List (Wave K)}, Solves (net ++ net') w ↔
      ∃ u v, w = u ++ v ∧ Solves net u ∧ Solves net' v := by
  induction net with
  | nil =>
    intro w
    constructor
    · intro h
      exact ⟨[], w, rfl, rfl, h⟩
    · rintro ⟨u, v, rfl, rfl, h⟩
      exact h
  | cons c net ih =>
    intro w
    constructor
    · rintro ⟨u, v, rfl, hu, hv⟩
      obtain ⟨u', v', rfl, hu', hv'⟩ := ih.mp hv
      exact ⟨u ++ u', v', (append_assoc _ _ _).symm, ⟨u, u', rfl, hu, hu'⟩, hv'⟩
    · rintro ⟨u, v, rfl, ⟨u', v', rfl, hu', hv'⟩, hv⟩
      exact ⟨u', v' ++ v, append_assoc _ _ _, hu', ih.mpr ⟨v', v, rfl, hv', hv⟩⟩

/-- The order of the circuits only changes the order of the waves. -/
theorem Solves.perm (hp : net.Perm net') :
    ∀ {w : List (Wave K)}, Solves net w → ∃ w', w.Perm w' ∧ Solves net' w' := by
  induction hp with
  | nil =>
    intro w h
    exact ⟨w, .refl _, h⟩
  | cons c _ ih =>
    rintro w ⟨u, v, rfl, hu, hv⟩
    obtain ⟨v', hperm, hv'⟩ := ih hv
    exact ⟨u ++ v', hperm.append_left u, u, v', rfl, hu, hv'⟩
  | swap c d net =>
    rintro w ⟨u, _, rfl, hu, v, t, rfl, hv, ht⟩
    refine ⟨v ++ (u ++ t), ?_, v, u ++ t, rfl, hv, u, t, rfl, hu, ht⟩
    rw [← append_assoc, ← append_assoc]
    exact List.perm_append_comm.append_right t
  | trans _ _ ih₁ ih₂ =>
    intro w h
    obtain ⟨w₁, hp₁, h₁⟩ := ih₁ h
    obtain ⟨w₂, hp₂, h₂⟩ := ih₂ h₁
    exact ⟨w₂, hp₁.trans hp₂, h₂⟩

/-! ## Merging circuits at a node -/

/-- `r` replaces the circuits `gs`, each of which has a terminal of the node
`n`: it has their other terminals, and its waves are theirs with the two
terminals of `n` tied together. -/
structure Merge (n : String) (gs : List (Circuit K)) (r : Circuit K) : Prop where
  terminals : (names gs).Perm (n :: n :: r.names)
  touches : ∀ g ∈ gs, n ∈ g.names
  closes : ∀ w, Solves gs w → ∃ x y w', w.Perm (x :: y :: w') ∧ x.node = n ∧ y.node = n ∧
    (x.a = y.b → y.a = x.b → r.Carries w')
  opens : ∀ w', r.Carries w' → ∃ x y w, Solves gs w ∧ w.Perm (x :: y :: w') ∧ x.node = n ∧
    y.node = n ∧ x.a = y.b ∧ y.a = x.b

variable {gs rest : List (Circuit K)} {r : Circuit K}

theorem Merge.names_perm (m : Merge n gs r) (hnet : net.Perm (gs ++ rest)) :
    (names net).Perm (n :: n :: names (r :: rest)) := by
  have h := Spar.names_perm hnet
  rw [names_append] at h
  exact h.trans (m.terminals.append_right _)

theorem Merge.not_mem (m : Merge n gs r) (hnet : net.Perm (gs ++ rest))
    (h2 : (names net).count n ≤ 2) : n ∉ names (r :: rest) := by
  rw [(m.names_perm hnet).count_eq, List.count_cons_self, List.count_cons_self] at h2
  exact List.count_eq_zero.mp (by omega)

/-- **A merge keeps the port waves** of a net in which no other terminal
belongs to the node. -/
theorem Merge.portWaves
    (m : Merge n gs r) (hnet : net.Perm (gs ++ rest)) (h2 : (names net).count n ≤ 2)
    (α β : String → K) : PortWaves net α β ↔ PortWaves (r :: rest) α β := by
  have hn := m.not_mem hnet h2
  constructor
  · rintro ⟨w, hw, ht, hp⟩
    obtain ⟨w₁, hperm, hw₁⟩ := hw.perm hnet
    obtain ⟨u, v, rfl, hu, hv⟩ := solves_append.mp hw₁
    obtain ⟨x, y, u', hu', hx, hy, hcl⟩ := m.closes u hu
    have total := hperm.trans (hu'.append_right v)
    have hnames : n ∉ (u' ++ v).map Wave.node := by
      have e := (total.map Wave.node)
      rw [hw.names_eq] at e
      have e' : (n :: n :: (u' ++ v).map Wave.node).Perm (n :: n :: names (r :: rest)) := by
        have := e.symm.trans (m.names_perm hnet)
        simpa [hx, hy] using this
      intro hmem
      exact hn (e'.cons_inv.cons_inv.mem_iff.mp hmem)
    obtain ⟨⟨hxy, hyx⟩, ht'⟩ := (tied_cons_cons hx hy hnames).mp (ht.perm total)
    exact ⟨u' ++ v, ⟨u', v, rfl, hcl hxy hyx, hv⟩, ht',
      (atPorts_cons_cons hx hy hnames).mp (hp.perm total)⟩
  · rintro ⟨w', hw', ht, hp⟩
    have hnames : n ∉ w'.map Wave.node := by rwa [hw'.names_eq]
    obtain ⟨u', v, rfl, hu', hv⟩ := hw'
    obtain ⟨x, y, u, hu, hperm, hx, hy, hxy, hyx⟩ := m.opens u' hu'
    have total := hperm.append_right v
    obtain ⟨w, hpw, hw⟩ := (solves_append.mpr ⟨u, v, rfl, hu, hv⟩).perm hnet.symm
    have back := total.symm.trans hpw
    exact ⟨w, hw, ((tied_cons_cons hx hy hnames).mpr ⟨⟨hxy, hyx⟩, ht⟩).perm back,
      ((atPorts_cons_cons hx hy hnames).mpr hp).perm back⟩

/-! ## The two joins are merges -/

variable {node : ι → String} {S : ι → ι → K}

/-- Renumbering the ports kept does not change what they carry. -/
theorem carries_ofPorts [DecidableEq ι] {o : ι} {kept : List ι} (hnd : kept.Nodup) :
    (Circuit.ofPorts o kept node S).Carries w ↔ Carries kept node S w := by
  have renumbered : ∀ a b,
      Admits (range kept.length) (ofPorts o kept node S).S
        (fun j => a (kept.getD j o)) (fun j => b (kept.getD j o)) ↔ Admits kept S a b := by
    intro a b
    have row := fun i => map_range_getD o kept fun j => S i j * a j
    constructor
    · intro h i hi
      obtain ⟨j, hj, rfl⟩ := List.mem_iff_getElem.mp hi
      have := h j (List.mem_range.mpr hj)
      simp only [ofPorts, row] at this
      simpa [hj] using this
    · intro h j hj
      have hj' := List.mem_range.mp hj
      simp only [ofPorts, row]
      exact h _ (by simp [hj'])
  constructor
  · rintro ⟨a, b, hab, rfl⟩
    have place : ∀ j ∈ range kept.length, kept.idxOf (kept.getD j o) = j := by
      intro j hj
      have hj' := List.mem_range.mp hj
      simp [hj', hnd.idxOf_getElem]
    refine ⟨fun i => a (kept.idxOf i), fun i => b (kept.idxOf i), (renumbered _ _).mp ?_, ?_⟩
    · exact Admits.congr hab (fun _ _ _ _ => rfl) (fun j hj => by rw [place j hj])
        (fun j hj => by rw [place j hj])
    · unfold waves
      rw [← map_range_getD o kept]
      apply List.map_congr_left
      intro j hj
      show _ = Wave.mk _ (a (kept.idxOf (kept.getD j o))) (b (kept.idxOf (kept.getD j o)))
      rw [place j hj]
      rfl
  · rintro ⟨a, b, hab, rfl⟩
    exact ⟨_, _, (renumbered a b).mpr hab, (map_range_getD o kept _).symm⟩

/-- Tying the ports `k` and `l` leaves the eliminated matrix. -/
theorem Carries.tie {ports rest : List ι} {k l : ι} (hp : ports.Perm (k :: l :: rest))
    (hd : denominator S k l ≠ 0) (h : Carries ports node S w) :
    ∃ x y w', w.Perm (x :: y :: w') ∧ x.node = node k ∧ y.node = node l ∧
      (x.a = y.b → y.a = x.b → Carries rest node (eliminate S k l) w') := by
  obtain ⟨a, b, hab, rfl⟩ := h
  refine ⟨⟨node k, a k, b k⟩, ⟨node l, a l, b l⟩, waves rest node a b, hp.map _, rfl, rfl, ?_⟩
  intro hk hl
  exact ⟨a, b, (hab.perm hp).eliminate hd hk hl, rfl⟩

/-- And what the eliminated matrix carries extends to tied ports. -/
theorem Carries.untie [DecidableEq ι] {ports rest : List ι} {k l : ι}
    (hp : ports.Perm (k :: l :: rest)) (hnd : ports.Nodup) (hd : denominator S k l ≠ 0)
    (h : Carries rest node (eliminate S k l) w') :
    ∃ x y w, Carries ports node S w ∧ w.Perm (x :: y :: w') ∧ x.node = node k ∧
      y.node = node l ∧ x.a = y.b ∧ y.a = x.b := by
  obtain ⟨a, b, hab, rfl⟩ := h
  obtain ⟨hk, hl, -⟩ : k ∉ l :: rest ∧ l ∉ rest ∧ rest.Nodup := by
    simpa [List.nodup_cons] using hp.nodup_iff.mp hnd
  obtain ⟨a', b', agree, hab', hkl, hlk⟩ := hab.of_eliminate hd
    (fun e => hk (e ▸ List.mem_cons_self)) (fun m => hk (List.mem_cons_of_mem _ m)) hl
  have same : waves rest node a b = waves rest node a' b' := by
    apply List.map_congr_left
    intro i hi
    rw [(agree i hi).1, (agree i hi).2]
  refine ⟨⟨node k, a' k, b' k⟩, ⟨node l, a' l, b' l⟩, waves ports node a' b',
    ⟨a', b', hab'.perm hp.symm, rfl⟩, ?_, rfl, rfl, hkl, hlk⟩
  rw [same]
  exact hp.map _

theorem carries_block {s t : Circuit K} :
    Solves [s, t] w ↔ Carries (s.ports.map Sum.inl ++ t.ports.map Sum.inr)
      (Sum.elim s.node t.node) (block s.S t.S) w := by
  constructor
  · rintro ⟨u, _, rfl, ⟨a, b, hab, rfl⟩, v, _, rfl, ⟨a', b', hab', rfl⟩, rfl⟩
    exact ⟨Sum.elim a a', Sum.elim b b', admits_block.mpr ⟨hab, hab'⟩, by
      simp [waves, Function.comp_def]⟩
  · rintro ⟨a, b, hab, rfl⟩
    obtain ⟨hs, ht⟩ := admits_block.mp hab
    refine ⟨waves s.ports s.node (a ∘ inl) (b ∘ inl),
      waves t.ports t.node (a ∘ inr) (b ∘ inr), ?_, ⟨_, _, hs, rfl⟩, _, [],
      (List.append_nil _).symm, ⟨_, _, ht, rfl⟩, rfl⟩
    simp [waves, Function.comp_def]

section Joins

variable [DecidableEq K]

variable {s : Circuit K} {k l : ℕ}

theorem interconnectEntry_eq (hd : interconnectDenominator s k l ≠ 0) :
    interconnectEntry s k l = eliminate s.S k l := by
  funext i j
  simp [interconnectEntry, eliminate, denominator, tiny, hd]

theorem connectedEntry_eq {s t : Circuit K} (hd : connectedDenominator s t k l ≠ 0) :
    connectedEntry s t k l = eliminate (block s.S t.S) (.inl k) (.inr l) := by
  funext i j
  cases i with
  | inl i =>
    cases j with
    | inl j => simp [connectedEntry, eliminate, denominator, block, tiny, hd]
    | inr j => simp [connectedEntry, eliminate, denominator, block, tiny, hd]
  | inr i =>
    cases j with
    | inl j => simp [connectedEntry, eliminate, denominator, block, tiny, hd]
    | inr j => simp [connectedEntry, eliminate, denominator, block, tiny, hd]

/-- **Joining two terminals of one circuit** is a merge. -/
theorem merge_interconnect {n : String} (hk : k < s.size)
    (hl : l < s.size) (hkl : k ≠ l) (hnk : s.node k = n) (hnl : s.node l = n)
    (hd : interconnectDenominator s k l ≠ 0) : Merge n [s] (interconnectJoin s k l) := by
  have hperm : s.ports.Perm (k :: l :: s.ports.filter fun j => ¬(j = k ∨ j = l)) := by
    refine (perm_cons_kept s.nodup_ports (mem_ports.mpr hk)).trans (.cons k ?_)
    have h := perm_cons_kept (s.nodup_ports.filter fun j => ¬j = k)
      (List.mem_filter.mpr ⟨mem_ports.mpr hl, by simpa using hkl.symm⟩)
    simpa [List.filter_filter, Bool.and_comm] using h
  have hnd := s.nodup_ports.filter fun j => ¬(j = k ∨ j = l)
  refine ⟨?_, ?_, ?_, ?_⟩
  · have h := hperm.map s.node
    simp only [map_cons, hnk, hnl] at h
    rw [interconnectJoin, names_ofPorts]
    simpa [names, Circuit.names] using h
  · intro g hg
    cases List.mem_singleton.mp hg
    exact mem_map.mpr ⟨k, mem_ports.mpr hk, hnk⟩
  · rintro w ⟨u, _, rfl, hu, rfl⟩
    obtain ⟨x, y, w', hw, hx, hy, hcl⟩ := hu.tie hperm hd
    refine ⟨x, y, w', by simpa using hw, hx.trans hnk, hy.trans hnl, fun h h' => ?_⟩
    rw [interconnectJoin, carries_ofPorts hnd, interconnectEntry_eq hd]
    exact hcl h h'
  · intro w' hw'
    rw [interconnectJoin, carries_ofPorts hnd, interconnectEntry_eq hd] at hw'
    obtain ⟨x, y, w, hw, hp, hx, hy, h, h'⟩ := hw'.untie hperm s.nodup_ports hd
    exact ⟨x, y, w, ⟨w, [], by simp, hw, rfl⟩, hp, hx.trans hnk, hy.trans hnl, h, h'⟩

/-- **Joining terminals of two circuits** is a merge. -/
theorem merge_connected {s t : Circuit K} {n : String} (hk : k < s.size)
    (hl : l < t.size) (hnk : s.node k = n) (hnl : t.node l = n)
    (hd : connectedDenominator s t k l ≠ 0) : Merge n [s, t] (connectedJoin s t k l) := by
  have hks := mem_ports.mpr hk
  have hlt := mem_ports.mpr hl
  have hperm : (s.ports.map inl ++ t.ports.map inr).Perm (inl k :: inr l ::
      ((s.ports.filter fun j => ¬j = k).map inl ++ (t.ports.filter fun j => ¬j = l).map inr)) := by
    have hs := (perm_cons_kept s.nodup_ports hks).map (inl (β := ℕ))
    have ht := (perm_cons_kept t.nodup_ports hlt).map (inr (α := ℕ))
    refine (hs.append ht).trans (.cons _ ?_)
    exact List.perm_middle
  have hnd : (s.ports.map inl ++ t.ports.map inr).Nodup := by
    refine List.Nodup.append (s.nodup_ports.map inl_injective) (t.nodup_ports.map inr_injective) ?_
    intro p hp hp'
    obtain ⟨i, -, rfl⟩ := List.mem_map.mp hp
    simp at hp'
  have hnd' := (List.nodup_cons.mp (List.nodup_cons.mp (hperm.nodup_iff.mp hnd)).2).2
  have hd' : denominator (block s.S t.S) (.inl k) (.inr l) ≠ 0 := by
    simpa [denominator, block, connectedDenominator] using hd
  refine ⟨?_, ?_, ?_, ?_⟩
  · have h := hperm.map (Sum.elim s.node t.node)
    simp only [map_cons, elim_inl, elim_inr, hnk, hnl] at h
    rw [connectedJoin, names_ofPorts]
    simpa [names, Circuit.names, Function.comp_def] using h
  · intro g hg
    rcases mem_cons.mp hg with rfl | hg
    · exact mem_map.mpr ⟨k, hks, hnk⟩
    · cases List.mem_singleton.mp hg
      exact mem_map.mpr ⟨l, hlt, hnl⟩
  · intro w hw
    obtain ⟨x, y, w', hp, hx, hy, hcl⟩ := (carries_block.mp hw).tie hperm hd'
    refine ⟨x, y, w', hp, hx.trans hnk, hy.trans hnl, fun h h' => ?_⟩
    rw [connectedJoin, carries_ofPorts hnd', connectedEntry_eq hd]
    exact hcl h h'
  · intro w' hw'
    rw [connectedJoin, carries_ofPorts hnd', connectedEntry_eq hd] at hw'
    obtain ⟨x, y, w, hw, hp, hx, hy, h, h'⟩ := hw'.untie hperm hnd hd'
    exact ⟨x, y, w, carries_block.mpr hw, hp, hx.trans hnk, hy.trans hnl, h, h'⟩

/-! ## Joins and runs of joins -/

/-- One pass of the reduction loop: two terminals of one node are joined, and
the denominator does not vanish. -/
def Join (net net' : List (Circuit K)) : Prop :=
  ∃ n1 n2, n1 ≠ n2 ∧ (∃ n, nodeName net n1 = some n ∧ nodeName net n2 = some n) ∧
    (∃ d, reduceDenominator net n1 n2 = some d ∧ d ≠ 0) ∧ reduce net n1 n2 = some net'

def Reduces : List (Circuit K) → List (Circuit K) → Prop := Relation.ReflTransGen Join

variable {net net' : List (Circuit K)}

theorem Join.merge (h : Join net net') :
    ∃ n gs r rest, net.Perm (gs ++ rest) ∧ net' = r :: rest ∧ Merge n gs r := by
  obtain ⟨n1, n2, hne, ⟨n, h1, h2⟩, ⟨d, hd, hd0⟩, hr⟩ := h
  obtain ⟨c1, hc1, hp1, hn1⟩ := nodeName_eq_some h1
  obtain ⟨c2, hc2, hp2, hn2⟩ := nodeName_eq_some h2
  simp only [reduceDenominator, reduce, hc1, hc2] at hd hr
  by_cases hc : n1.circuit = n2.circuit
  · rw [if_neg (not_not.mpr hc)] at hd hr
    cases hd
    cases hr
    have same : c1 = c2 := Option.some.inj (hc1.symm.trans (hc ▸ hc2))
    subst same
    have hport : n1.port ≠ n2.port := by
      intro e
      cases n1
      cases n2
      simp_all
    obtain ⟨hlt, rfl⟩ := List.getElem?_eq_some_iff.mp hc1
    exact ⟨n, [_], _, _, (List.getElem_cons_eraseIdx_perm hlt).symm, rfl,
      merge_interconnect hp1 hp2 hport hn1 hn2 hd0⟩
  · rw [if_pos hc] at hd hr
    cases hd
    cases hr
    exact ⟨n, [c1, c2], _, _, perm_eraseIdx_max_min hc hc1 hc2, rfl,
      merge_connected hp1 hp2 hn1 hn2 hd0⟩

/-- No node has more than two terminals. -/
def TwoTerminal (net : List (Circuit K)) : Prop := ∀ n, (names net).count n ≤ 2

/-- What a run of joins keeps: at most two terminals at a node, the nodes with
one terminal, and the waves there. -/
structure SamePorts (net net' : List (Circuit K)) : Prop where
  twoTerminal : TwoTerminal net'
  ports : ∀ n, (names net').count n = 1 ↔ (names net).count n = 1
  portWaves : ∀ α β, PortWaves net α β ↔ PortWaves net' α β

theorem Join.samePorts (h : Join net net') (h2 : TwoTerminal net) : SamePorts net net' := by
  obtain ⟨n, gs, r, rest, hperm, rfl, m⟩ := h.merge
  have hnames := m.names_perm hperm
  have hcount : ∀ z, (names net).count z =
      (names (r :: rest)).count z + (if n = z then 2 else 0) := by
    intro z
    rw [hnames.count_eq]
    by_cases hz : n = z
    · simp [hz]
    · simp [hz]
  refine ⟨?_, ?_, ?_⟩
  · intro z
    have := h2 z
    have := hcount z
    omega
  · intro z
    have hz := hcount z
    have := h2 z
    split at hz
    · omega
    · omega
  · intro α β
    exact m.portWaves hperm (h2 n) α β

/-- **Every run of joins keeps the port nodes and the port waves.** -/
theorem Reduces.samePorts (h : Reduces net net') (h2 : TwoTerminal net) : SamePorts net net' := by
  induction h with
  | refl => exact ⟨h2, fun _ => Iff.rfl, fun _ _ => Iff.rfl⟩
  | tail _ step ih =>
    have now := step.samePorts ih.twoTerminal
    exact ⟨now.twoTerminal, fun z => (now.ports z).trans (ih.ports z),
      fun α β => (ih.portWaves α β).trans (now.portWaves α β)⟩

end Joins

end Qucs.Spar
