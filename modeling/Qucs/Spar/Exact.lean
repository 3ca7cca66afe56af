/-
# The reduction is exact and its order does not matter

A net without internal nodes is its own answer: its port waves are those of the
remaining matrices (`portWaves_reduced`), so by `Reduces.samePorts` these
matrices describe the port waves of the net the reduction started from.

For the order of the joins, two things have to agree between two complete
reductions: which pairs of ports get an entry, and its value. The pairs are
those of one connected component of the net (`Linked`), which no join changes;
the value is the answer to a unit wave at one port.
-/
import Qucs.Spar.Reduction

namespace Qucs.Spar

open List Circuit

open Lib.Multiport (Admits)

variable {K : Type*}

/-! ## Connected components -/

variable (net : List (Circuit K))

/-- A property of nodes that holds at all ports of a circuit or at none. -/
def Uniform (P : String → Prop) : Prop :=
  ∀ c ∈ net, ∀ x ∈ c.names, ∀ y ∈ c.names, P x → P y

/-- Two nodes that no such property tells apart: they lie in one connected
component of the net. -/
def Linked (x y : String) : Prop :=
  ∀ P, Uniform net P → (P x ↔ P y)

/-! ## Reduced nets -/

/-- No internal node is left: every node has one terminal. -/
def Reduced : Prop := (names net).Nodup

variable {net : List (Circuit K)} {c : Circuit K} {x : String}

theorem mem_names (hc : c ∈ net) (hx : x ∈ c.names) : x ∈ names net := mem_flatMap.mpr ⟨c, hc, hx⟩

variable {i : ℕ}

theorem Circuit.node_mem (hi : i ∈ c.ports) : c.node i ∈ c.names := mem_map.mpr ⟨i, hi, rfl⟩

theorem Reduced.tail (h : Reduced (c :: net)) : Reduced net := (nodup_append.mp h).2.1

theorem Reduced.circuit_unique (h : Reduced net) {c c' : Circuit K}
    : c ∈ net → c' ∈ net → x ∈ c.names → x ∈ c'.names → c = c' := by
  induction net with
  | nil =>
    intro hc
    cases hc
  | cons d net ih =>
    intro hc hc' hx hx'
    have apart : ∀ e ∈ net, x ∈ d.names → x ∈ e.names → False := by
      intro e he hd hex
      exact (nodup_append.mp h).2.2 x hd x (mem_names he hex) rfl
    rcases mem_cons.mp hc with rfl | hd
    · rcases mem_cons.mp hc' with rfl | hd'
      · rfl
      · exact (apart c' hd' hx hx').elim
    · rcases mem_cons.mp hc' with rfl | hd'
      · exact (apart c hd hx' hx).elim
      · exact ih h.tail hd hd' hx hx'

theorem Reduced.port_unique (h : Reduced net) (hc : c ∈ net) {i j : ℕ} (hi : i ∈ c.ports)
    (hj : j ∈ c.ports) (e : c.node i = c.node j) : i = j := by
  have hnd := (nodup_flatMap.mp h).1 c hc
  exact inj_on_of_nodup_map hnd hi hj e

theorem Reduced.linked_iff (h : Reduced net) {x y : String}
    (hx : x ∈ names net) : Linked net x y ↔ ∃ c ∈ net, x ∈ c.names ∧ y ∈ c.names := by
  constructor
  · intro hl
    obtain ⟨c, hc, hxc⟩ := mem_flatMap.mp hx
    have uniform : Uniform net fun z => z ∈ c.names := by
      intro c' hc' z hz v hv hzc
      cases h.circuit_unique hc hc' hzc hz
      exact hv
    exact ⟨c, hc, hxc, (hl _ uniform).mp hxc⟩
  · rintro ⟨c, hc, hxc, hyc⟩ P hP
    exact ⟨hP c hc x hxc y hyc, hP c hc y hyc x hxc⟩

theorem mem_saveResults {x y : String} {v : K} : (x, y, v) ∈ saveResults net ↔
      ∃ c ∈ net, ∃ i ∈ c.ports, ∃ j ∈ c.ports, c.node i = x ∧ c.node j = y ∧ c.S i j = v := by
  simp [saveResults]

/-! ## Joins keep the components -/

variable [Field K]

variable {n : String} {gs : List (Circuit K)} {r : Circuit K}

theorem Merge.mem_names (m : Merge n gs r) : (∃ g ∈ gs, x ∈ g.names) ↔ x = n ∨ x ∈ r.names := by
  have h := m.terminals.mem_iff (a := x)
  simpa [names] using h

section

variable {gs rest net : List (Circuit K)} (m : Merge n gs r) (hnet : net.Perm (gs ++ rest))
include m hnet

/-- A uniform property of the merged net extends to the node that was tied. -/
theorem Merge.uniform_extend (hn : n ∉ names (r :: rest)) {P : String → Prop}
    (hP : Uniform (r :: rest) P) :
    Uniform net fun z => (z = n ∧ ∃ v ∈ r.names, P v) ∨ (z ≠ n ∧ P z) := by
  intro g hg x hx y hy
  have hg' := hnet.mem_iff.mp hg
  rcases mem_append.mp hg' with hgs | hrest
  · have agrees : ∀ z ∈ g.names,
        (((z = n ∧ ∃ v ∈ r.names, P v) ∨ (z ≠ n ∧ P z)) ↔ ∃ v ∈ r.names, P v) := by
      intro z hz
      rcases m.mem_names.mp ⟨g, hgs, hz⟩ with rfl | hzr
      · simp
      · have hzn : z ≠ n := by
          rintro rfl
          exact hn (by simp [hzr])
        constructor
        · rintro (⟨e, -⟩ | ⟨-, hz⟩)
          · exact absurd e hzn
          · exact ⟨z, hzr, hz⟩
        · rintro ⟨v, hv, hPv⟩
          exact .inr ⟨hzn, hP r mem_cons_self v hv z hzr hPv⟩
    intro h
    exact (agrees y hy).mpr ((agrees x hx).mp h)
  · have away : ∀ z ∈ g.names, z ≠ n := by
      rintro z hz rfl
      exact hn (by
        simp only [names_cons, mem_append]
        exact .inr (mem_flatMap.mpr ⟨g, hrest, hz⟩))
    rintro (⟨e, -⟩ | ⟨-, h⟩)
    · exact absurd e (away x hx)
    · exact .inr ⟨away y hy, hP g (mem_cons_of_mem _ hrest) x hx y hy h⟩

theorem Merge.uniform {P : String → Prop} (hP : Uniform net P) : Uniform (r :: rest) P := by
  have inGs : ∀ g ∈ gs, g ∈ net := fun g hg => hnet.mem_iff.mpr (mem_append_left _ hg)
  intro c hc x hx y hy h
  rcases mem_cons.mp hc with rfl | hc
  · obtain ⟨g, hg, hxg⟩ := m.mem_names.mpr (.inr hx)
    obtain ⟨g', hg', hyg⟩ := m.mem_names.mpr (.inr hy)
    have hPn : P n := hP g (inGs g hg) x hxg n (m.touches g hg) h
    exact hP g' (inGs g' hg') n (m.touches g' hg') y hyg hPn
  · exact hP c (hnet.mem_iff.mpr (mem_append_right _ hc)) x hx y hy h

end

section Joins

variable [DecidableEq K]

variable {net net' : List (Circuit K)}

/-- A join changes no component of the nodes that stay. -/
theorem Join.linked (h : Join net net') (h2 : TwoTerminal net) {x y : String} (hx : x ∈ names net')
    (hy : y ∈ names net') : Linked net x y ↔ Linked net' x y := by
  obtain ⟨n, gs, r, rest, hperm, rfl, m⟩ := h.merge
  have hn := m.not_mem hperm (h2 n)
  constructor
  · intro hl P hP
    have hxn : x ≠ n := fun e => hn (e ▸ hx)
    have hyn : y ≠ n := fun e => hn (e ▸ hy)
    have := hl _ (m.uniform_extend hperm hn hP)
    simpa [hxn, hyn] using this
  · intro hl P hP
    exact hl P (m.uniform hperm hP)

variable {x : String}

theorem Join.names_subset (h : Join net net') (hx : x ∈ names net') : x ∈ names net := by
  obtain ⟨n, gs, r, rest, hperm, rfl, m⟩ := h.merge
  exact (m.names_perm hperm).mem_iff.mpr (by simpa using Or.inr hx)

/-- **No run of joins changes a component** of the nodes that stay. -/
theorem Reduces.linked (h : Reduces net net') (h2 : TwoTerminal net) {x y : String} :
    x ∈ names net' → y ∈ names net' → (Linked net x y ↔ Linked net' x y) := by
  induction h with
  | refl =>
    intro _ _
    exact Iff.rfl
  | tail run step ih =>
    intro hx hy
    have now := step.linked (Reduces.samePorts run h2).twoTerminal hx hy
    exact (ih (step.names_subset hx) (step.names_subset hy)).trans now

end Joins

/-! ## The port waves of a reduced net -/

/-- The matrices of a reduced net relate the waves at its ports. -/
def Relates (net : List (Circuit K)) (α β : String → K) : Prop :=
  ∀ c ∈ net, Admits c.ports c.S (α ∘ c.node) (β ∘ c.node)

/-- Waves that are `α` and `β` everywhere solve the net iff the
matrices relate them. -/
theorem Solves.relates {α β : String → K} :
    ∀ {w : List (Wave K)}, Solves net w → (∀ x ∈ w, x.a = α x.node ∧ x.b = β x.node) →
      Relates net α β := by
  induction net with
  | nil =>
    intro w _ _ c hc
    cases hc
  | cons d net ih =>
    rintro w ⟨u, v, rfl, ⟨a, b, hab, rfl⟩, hv⟩ hw c hc
    rcases mem_cons.mp hc with rfl | hc
    · have at_port : ∀ i ∈ c.ports, a i = α (c.node i) ∧ b i = β (c.node i) := by
        intro i hi
        exact hw ⟨c.node i, a i, b i⟩ (mem_append_left _ (mem_map.mpr ⟨i, hi, rfl⟩))
      exact hab.congr (fun _ _ _ _ => rfl) (fun i hi => (at_port i hi).1)
        (fun i hi => (at_port i hi).2)
    · exact ih hv (fun x hx => hw x (mem_append_right _ hx)) c hc

theorem Relates.solves {α β : String → K} (h : Relates net α β) :
    Solves net ((names net).map fun n => ⟨n, α n, β n⟩) := by
  induction net with
  | nil => rfl
  | cons c net ih =>
    refine ⟨c.names.map fun n => ⟨n, α n, β n⟩, _, map_append, ?_,
      ih fun d hd => h d (mem_cons_of_mem _ hd)⟩
    refine ⟨_, _, h c mem_cons_self, ?_⟩
    simp [Circuit.names, waves]

/-- **The port waves of a reduced net are those of its matrices.** -/
theorem portWaves_reduced (h : Reduced net) (α β : String → K) :
    PortWaves net α β ↔ Relates net α β := by
  constructor
  · rintro ⟨w, hw, -, hp⟩
    apply hw.relates
    intro x hx
    apply hp x hx
    rw [hw.names_eq]
    apply count_eq_one_of_mem h
    rw [← hw.names_eq]
    exact mem_map.mpr ⟨x, hx, rfl⟩
  · intro hr
    refine ⟨_, hr.solves, ?_, ?_⟩
    · refine pairwise_map.mpr (List.Pairwise.imp ?_ h)
      intro x y hne e
      exact absurd e hne
    · intro x hx _
      obtain ⟨n, -, rfl⟩ := mem_map.mp hx
      exact ⟨rfl, rfl⟩

/-! ## Reading the matrices off the port waves -/

open Classical in
/-- The outgoing waves of a reduced net, for any incoming ones. -/
theorem Reduced.exists_relates (h : Reduced net) (α : String → K) : ∃ β, Relates net α β := by
  let row (p : Circuit K × ℕ) : K := (p.1.ports.map fun j => p.1.S p.2 j * α (p.1.node j)).sum
  let At (x : String) (p : Circuit K × ℕ) : Prop := p.1 ∈ net ∧ p.2 ∈ p.1.ports ∧ p.1.node p.2 = x
  refine ⟨fun x => if hp : ∃ p, At x p then row hp.choose else 0, ?_⟩
  intro c hc i hi
  have hp : ∃ p, At (c.node i) p := ⟨(c, i), hc, hi, rfl⟩
  have unique : ∀ p, At (c.node i) p → p = (c, i) := by
    rintro ⟨c', i'⟩ ⟨hc', hi', e⟩
    obtain rfl : c' = c := by
      apply h.circuit_unique hc' hc (node_mem hi')
      exact (show c'.node i' = c.node i from e) ▸ node_mem hi
    exact congrArg (Prod.mk c') (h.port_unique hc hi' hi e)
  show (if hp : ∃ p, At (c.node i) p then row hp.choose else 0) = row (c, i)
  rw [dif_pos hp, unique _ hp.choose_spec]

variable {β : String → K}

/-- A unit wave into the port at `y` comes out as the column of that port. -/
theorem Relates.entry (h : Reduced net)
    {i j : ℕ} (hc : c ∈ net) (hi : i ∈ c.ports) (hj : j ∈ c.ports)
    (hr : Relates net (fun x => if x = c.node j then 1 else 0) β) : β (c.node i) = c.S i j := by
  have row := hr c hc i hi
  rw [sum_map_eq_nsmul_single j _ ?_] at row
  · simpa [count_eq_one_of_mem c.nodup_ports hj] using row
  · intro j' hne hj'
    have : c.node j' ≠ c.node j := fun e => hne (h.port_unique hc hj' hj e)
    simp [this]

/-- Reduced nets with the same nodes, components and port waves save the same
entries. -/
theorem saveResults_subset {net net' : List (Circuit K)} (h : Reduced net) (h' : Reduced net')
    (hnames : ∀ x, x ∈ names net → x ∈ names net')
    (hlinked : ∀ x ∈ names net, ∀ y ∈ names net, Linked net x y → Linked net' x y)
    (hrel : ∀ α β, Relates net α β → Relates net' α β) {e : String × String × K}
    (he : e ∈ saveResults net) : e ∈ saveResults net' := by
  obtain ⟨x, y, v⟩ := e
  obtain ⟨c, hc, i, hi, j, hj, rfl, rfl, rfl⟩ := mem_saveResults.mp he
  have hx := mem_names hc (node_mem hi)
  have hy := mem_names hc (node_mem hj)
  have hl := hlinked _ hx _ hy ((h.linked_iff hx).mpr ⟨c, hc, node_mem hi, node_mem hj⟩)
  obtain ⟨c', hc', hxc, hyc⟩ := (h'.linked_iff (hnames _ hx)).mp hl
  obtain ⟨i', hi', ei⟩ := mem_map.mp hxc
  obtain ⟨j', hj', ej⟩ := mem_map.mp hyc
  obtain ⟨β, hβ⟩ := h.exists_relates fun x => if x = c.node j then 1 else 0
  have value := hβ.entry h hc hi hj
  have value' : β (c'.node i') = c'.S i' j' := by
    apply Relates.entry h' hc' hi' hj'
    rw [ej]
    exact hrel _ _ hβ
  refine mem_saveResults.mpr ⟨c', hc', i', hi', j', hj', ei, ej, ?_⟩
  rw [← value', ei, value]

section Joins

variable [DecidableEq K]

variable {net final : List (Circuit K)}

theorem Reduces.mem_names (h2 : TwoTerminal net) (hrun : Reduces net final) (hdone : Reduced final)
    (x : String) : x ∈ names final ↔ (names net).count x = 1 := by
  rw [← (hrun.samePorts h2).ports x]
  constructor
  · exact count_eq_one_of_mem hdone
  · intro hc
    exact count_pos_iff.mp (by omega)

theorem Reduces.relates (h2 : TwoTerminal net) (hrun : Reduces net final) (hdone : Reduced final)
    (α β : String → K) : PortWaves net α β ↔ Relates final α β :=
  ((hrun.samePorts h2).portWaves α β).trans (portWaves_reduced hdone α β)

/-- The entries saved by one complete reduction are saved by every other. -/
theorem Reduces.saveResults_subset {net final final' : List (Circuit K)}
    (h2 : TwoTerminal net) (hrun : Reduces net final) (hdone : Reduced final)
    (hrun' : Reduces net final') (hdone' : Reduced final') {e : String × String × K}
    (he : e ∈ saveResults final) : e ∈ saveResults final' := by
  have hnames : ∀ x, x ∈ names final → x ∈ names final' := by
    intro x hx
    exact (hrun'.mem_names h2 hdone' x).mpr ((hrun.mem_names h2 hdone x).mp hx)
  refine Spar.saveResults_subset hdone hdone' hnames ?_ ?_ he
  · intro x hx y hy hl
    exact (hrun'.linked h2 (hnames x hx) (hnames y hy)).mp ((hrun.linked h2 hx hy).mpr hl)
  · intro α β hr
    exact (hrun'.relates h2 hdone' α β).mp ((hrun.relates h2 hdone α β).mpr hr)

/-- **The reduction is exact and its order does not matter.**  Let no node of
the net have more than two terminals, and let some sequence of joins with
nonvanishing denominators leave no internal node. Then

* the nodes left are those with one terminal, the port nodes;
* `α` and `β` are the port waves of a simultaneous solution of the whole net
  iff the remaining matrices relate them;
* every other such sequence saves the same entries for the same ports. -/
theorem reduction_exact {net final : List (Circuit K)} (h2 : TwoTerminal net)
    (hrun : Reduces net final) (hdone : Reduced final) :
    (∀ x, x ∈ names final ↔ (names net).count x = 1) ∧
    (∀ α β, PortWaves net α β ↔ Relates final α β) ∧
    ∀ final', Reduces net final' → Reduced final' →
      ∀ e, e ∈ saveResults final' ↔ e ∈ saveResults final := by
  refine ⟨hrun.mem_names h2 hdone, hrun.relates h2 hdone, ?_⟩
  intro final' hrun' hdone' e
  exact ⟨hrun'.saveResults_subset h2 hdone' hrun hdone,
    hrun.saveResults_subset h2 hdone hrun' hdone'⟩

end Joins

/-- A circuit with the port node `p` that a second one loads at the nodes `n` and `m`.
Both reflect a third of a wave, and pass on as much to every other port. -/
noncomputable def loadedLoop : List (Circuit ℂ) :=
  [⟨3, fun i => ["p", "n", "m"].getD i "", fun _ _ => 1 / 3⟩,
   ⟨2, fun i => ["n", "m"].getD i "", fun _ _ => 1 / 3⟩]

/-- Its reduction: a connected join at `n` and the interconnect join this leaves
at `m`. -/
noncomputable def loadedLoopReduced : List (Circuit ℂ) :=
  [interconnectJoin (connectedJoin ⟨3, fun i => ["p", "n", "m"].getD i "", fun _ _ => 1 / 3⟩
    ⟨2, fun i => ["n", "m"].getD i "", fun _ _ => 1 / 3⟩ 1 0) 1 2]

theorem reduction_exact_loadedLoop :
    (∀ α β, PortWaves loadedLoop α β ↔ Relates loadedLoopReduced α β) ∧
    ∀ final', Reduces loadedLoop final' → Reduced final' →
      ∀ e, e ∈ saveResults final' ↔ e ∈ saveResults loadedLoopReduced := by
  have h2 : TwoTerminal loadedLoop := by
    intro n
    by_cases hn : n ∈ names loadedLoop
    · exact (by decide : ∀ x ∈ names loadedLoop, (names loadedLoop).count x ≤ 2) n hn
    · rw [count_eq_zero_of_not_mem hn]
      exact Nat.zero_le 2
  have hrun : Reduces loadedLoop loadedLoopReduced := by
    refine .tail (.single ⟨⟨0, 1⟩, ⟨1, 0⟩, by decide, ⟨"n", rfl, rfl⟩, ⟨_, rfl, ?_⟩, rfl⟩)
      ⟨⟨0, 1⟩, ⟨0, 2⟩, by decide, ⟨"m", rfl, rfl⟩, ⟨_, rfl, ?_⟩, rfl⟩
    · norm_num [connectedDenominator]
    · norm_num [interconnectDenominator, connectedJoin, ofPorts, connectedEntry, ports, range_succ,
        tiny, connectedDenominator]
  have hdone : Reduced loadedLoopReduced := by
    show ["p"].Nodup
    decide
  exact (reduction_exact h2 hrun hdone).2

end Qucs.Spar
