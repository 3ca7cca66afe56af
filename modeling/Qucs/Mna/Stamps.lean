/-
# The equations are the sum of the circuits' stamps

A circuit has its own small system: one row for each port and one for each of
its voltage sources, with the matrices `Y`, `B`, `C`, `D` as its four blocks
and `I`, `E` as the right-hand side (`stamp`, `source`). Its rows have a
place in the big system (`row`): a port goes to the row of its node, or
nowhere if that is ground; a voltage source goes to the row of its number,
after those of the nodes. The sum of all small systems, each scattered to
its places, is what nodal analysis asks for (`scatterMatrix`,
`scatterVector`).

The solver does not go through the circuits. It goes through the entries,
and for each through the terminals at its node or nodes. The main theorem
(`createMatrix_eq_scatter`) says that this comes to the same, for circuits
with any number of terminals at a node.

Different nodes have different rows (`row_port_iff`), and they come before those of the
voltage sources (`row_port_lt`, `row_source_lt`).
-/
import Qucs.Lib.Ranges
import Qucs.Mna.Assembly

namespace Qucs.Mna

open Lib.Fill Lib.Ranges Finset Circuit
open Prod (mk)
open Option (some map_some)
open Finset (sum_congr mem_range sum_eq_zero sum_disjSum)

/-! ## What the equations should be -/

section Scatter

variable {K : Type} [AddCommMonoid K]

/-- The rows of a circuit's own system: its ports and its voltage sources. -/
def Circuit.indices (ct : Circuit K) : Finset (ℕ ⊕ ℕ) :=
  (range ct.size).disjSum (range ct.vsources)

def Circuit.stamp (ct : Circuit K) : ℕ ⊕ ℕ → ℕ ⊕ ℕ → K
  | .inl p, .inl q => ct.matrixY (p * ct.size + q)
  | .inl p, .inr l => ct.matrixB (l * ct.size + p)
  | .inr l, .inl p => ct.matrixC (l * ct.size + p)
  | .inr l, .inr m => ct.matrixD (l * ct.vsources + m)

def Circuit.source (ct : Circuit K) : ℕ ⊕ ℕ → K
  | .inl p => ct.vectorI p
  | .inr l => ct.vectorE l

variable (subnet : List (Circuit K))

def firstSource (k : Nat) : Nat := start (subnet.map Circuit.vsources) k

/-- The place of a circuit's row in the equations; ground has none. -/
def row (k : Fin subnet.length) : ℕ ⊕ ℕ → Option ℕ
  | .inl p =>
    if (subnet.get k).node p = "gnd" then none
    else some ((narray subnet).idxOf ((subnet.get k).node p))
  | .inr l => some (countNodes subnet + (firstSource subnet k + l))

def scatterMatrix (r c : ℕ) : K :=
  ∑ k : Fin subnet.length, ∑ a ∈ (subnet.get k).indices, ∑ b ∈ (subnet.get k).indices,
    if row subnet k a = some r ∧ row subnet k b = some c then (subnet.get k).stamp a b else 0

def scatterVector (r : ℕ) : K :=
  ∑ k : Fin subnet.length, ∑ a ∈ (subnet.get k).indices,
    if row subnet k a = some r then (subnet.get k).source a else 0

end Scatter

/-! ## The nodes -/

section Nodes

variable {K : Type} [Zero K] {subnet : List (Circuit K)}

def names (subnet : List (Circuit K)) : List String :=
  subnet.flatMap fun c => (List.range c.size).map c.node

variable {name : String}

theorem mem_names : name ∈ names subnet ↔ ∃ c ∈ subnet, ∃ i < c.size, c.node i = name := by
  simp [names]

theorem node_mem_names {k : Fin subnet.length} {p : Nat} (hp : p < (subnet.get k).size) :
    (subnet.get k).node p ∈ names subnet :=
  mem_names.mpr ⟨_, List.get_mem _ _, p, hp, rfl⟩

theorem uniqueNames_eq (subnet : List (Circuit K)) :
    uniqueNames subnet = (names subnet).reverse ∪ [] := by
  show _ = List.foldr .insert [] (names subnet).reverse
  rw [List.foldr_reverse, names, List.foldl_flatMap, uniqueNames]
  simp only [List.foldl_map]
  rfl

theorem nodup_uniqueNames (subnet : List (Circuit K)) : (uniqueNames subnet).Nodup := by
  rw [uniqueNames_eq]
  exact List.nodup_nil.union _

theorem mem_uniqueNames : name ∈ uniqueNames subnet ↔ name ∈ names subnet := by
  simp [uniqueNames_eq]

theorem nodup_narray (subnet : List (Circuit K)) : (narray subnet).Nodup :=
  (nodup_uniqueNames subnet).filter _

theorem mem_narray : name ∈ narray subnet ↔ name ∈ names subnet ∧ name ≠ "gnd" := by
  rw [narray, List.mem_filter, mem_uniqueNames, bne_iff_ne]

theorem length_narray (hgnd : "gnd" ∈ names subnet) :
    (narray subnet).length = countNodes subnet := by
  have h : narray subnet = (uniqueNames subnet).erase "gnd" := by
    rw [(nodup_uniqueNames subnet).erase_eq_filter]
    rfl
  rw [h, List.length_erase_of_mem (mem_uniqueNames.mpr hgnd)]
  rfl

end Nodes

section Rows

variable {K : Type} [AddCommMonoid K] {subnet : List (Circuit K)} (hgnd : "gnd" ∈ names subnet)

include hgnd

theorem row_port_iff {k : Fin subnet.length} {p r : Nat} (hp : p < (subnet.get k).size)
    (hr : r < countNodes subnet) :
    row subnet k (.inl p) = some r ↔ (subnet.get k).node p = (narray subnet).getD r "" := by
  have hr' : r < (narray subnet).length := by rwa [length_narray hgnd]
  have hget : (narray subnet).getD r "" = (narray subnet)[r] := (List.getElem_eq_getD "").symm
  rw [row, hget]
  by_cases hg : (subnet.get k).node p = "gnd"
  · rw [if_pos hg]
    refine ⟨fun h => absurd h (by simp), fun h => ?_⟩
    have hne := (mem_narray.mp (List.getElem_mem hr')).2
    exact absurd (h ▸ hg) hne
  · have hmem := mem_narray.mpr ⟨node_mem_names hp, hg⟩
    rw [if_neg hg, some.injEq]
    refine ⟨?_, ?_⟩
    · intro h
      subst h
      exact (List.getElem_idxOf _).symm
    · intro h
      rw [h, (nodup_narray subnet).idxOf_getElem]

theorem row_port_lt {k : Fin subnet.length} {p r : Nat} (hp : p < (subnet.get k).size)
    (h : row subnet k (.inl p) = some r) : r < countNodes subnet := by
  rw [row] at h
  by_cases hg : (subnet.get k).node p = "gnd"
  · rw [if_pos hg] at h
    exact absurd h (by simp)
  · rw [if_neg hg, some.injEq] at h
    rw [← h, ← length_narray hgnd]
    exact List.idxOf_lt_length_of_mem (mem_narray.mpr ⟨node_mem_names hp, hg⟩)

variable {r : Nat}

theorem sum_getNode (hr : r < countNodes subnet) (f : Fin subnet.length × Nat → K) :
    ((getNode subnet r).map f).sum = ∑ k : Fin subnet.length,
      ∑ p ∈ range (subnet.get k).size, if row subnet k (.inl p) = some r then f (k, p) else 0 := by
  rw [getNode, terminals, sum_flatMap_finRange]
  refine sum_congr rfl fun k _ => ?_
  rw [List.map_map, sum_filter_range]
  refine sum_congr rfl fun p hp => ?_
  have hiff := row_port_iff hgnd (mem_range.mp hp) hr
  by_cases h : row subnet k (.inl p) = some r
  · rw [if_pos h, if_pos (by simpa using hiff.mp h)]
    rfl
  · rw [if_neg h, if_neg (by simpa using fun h' => h (hiff.mpr h'))]

theorem sum_getNode_circuit (hr : r < countNodes subnet) (k : Fin subnet.length)
    (f : Fin subnet.length × Nat → K) :
    ((getNode subnet r).map fun t => if t.1 = k then f t else 0).sum =
      ∑ p ∈ range (subnet.get k).size, if row subnet k (.inl p) = some r then f (k, p) else 0 := by
  rw [sum_getNode hgnd hr, Fintype.sum_eq_single k]
  · simp only [if_true]
  · intro j hj
    simp only [hj, if_false, ite_self, Finset.sum_const_zero]

end Rows

/-! ## The voltage sources -/

section Sources

variable {K : Type} [Zero K]

def unnumbered (c : Circuit K) : Circuit K := { c with vsource := -1 }

theorem assignVoltageSources_unnumbered (n : Nat) (cs : List (Circuit K)) :
    (assignVoltageSources n cs).1.map unnumbered = cs.map unnumbered := by
  induction cs generalizing n with
  | nil => rfl
  | cons c cs ih =>
    rw [assignVoltageSources]
    split
    · rw [List.map_cons, List.map_cons, ih]
      rfl
    · rw [List.map_cons, List.map_cons, ih]

theorem names_unnumbered (cs : List (Circuit K)) : names (cs.map unnumbered) = names cs := by
  rw [names, List.flatMap_map]
  rfl

variable (n : Nat) (cs : List (Circuit K))
include n cs

theorem assignVoltageSources_vsources :
    (assignVoltageSources n cs).1.map Circuit.vsources = cs.map Circuit.vsources := by
  have h := congrArg (List.map vsources) (assignVoltageSources_unnumbered n cs)
  rw [List.map_map, List.map_map] at h
  exact h

theorem assignVoltageSources_total :
    (assignVoltageSources n cs).2 = n + (cs.map Circuit.vsources).sum := by
  induction cs generalizing n with
  | nil => rfl
  | cons c cs ih =>
    rw [assignVoltageSources, List.map_cons, List.sum_cons]
    split
    · rw [ih, Nat.add_assoc]
    · rw [ih]
      omega

theorem assignVoltageSources_vsource :
    ∀ (k : Nat) (c : Circuit K), (assignVoltageSources n cs).1[k]? = some c → 0 < c.vsources →
      c.vsource = n + start (cs.map Circuit.vsources) k := by
  induction cs generalizing n with
  | nil => intro k c h _; exact absurd h (by simp [assignVoltageSources])
  | cons c₀ cs ih =>
    intro k c h hpos
    rw [assignVoltageSources] at h
    cases k with
    | zero =>
      split at h
      · obtain rfl := some.inj h
        simp [start]
      · next hno =>
          obtain rfl := some.inj h
          exact absurd hpos hno
    | succ k =>
      rw [List.map_cons, start_cons_succ]
      split at h
      · rw [ih _ k c h hpos]
        omega
      · rw [ih _ k c h hpos]
        omega

end Sources

section Numbering

variable {K : Type} [Zero K] (net : Net K)

theorem Net.gnd_mem_names : "gnd" ∈ names net.numbered := by
  rw [← names_unnumbered, Net.numbered, assignVoltageSources_unnumbered, names_unnumbered]
  exact mem_names.mpr net.grounded

theorem Net.countVoltageSources_eq :
    net.countVoltageSources = (net.numbered.map Circuit.vsources).sum := by
  rw [Net.countVoltageSources, assignVoltageSources_total, Nat.zero_add,
    ← assignVoltageSources_vsources 0]
  rfl

end Numbering

section Owners

variable {K : Type} [AddCommMonoid K] {subnet : List (Circuit K)}

def Numbered (subnet : List (Circuit K)) : Prop :=
  ∀ k, 0 < (subnet.get k).vsources → (subnet.get k).vsource = firstSource subnet k

theorem Net.numbered_spec (net : Net K) : Numbered net.numbered := by
  intro k hpos
  have h := assignVoltageSources_vsource 0 net.circuits k _ (List.getElem?_eq_getElem k.isLt) hpos
  have hstart : firstSource net.numbered k = start (net.circuits.map vsources) k :=
    congrArg (fun l => start l k) (assignVoltageSources_vsources 0 net.circuits)
  rw [hstart]
  simpa using h

def Owns (subnet : List (Circuit K)) (k : Fin subnet.length) (i : Nat) : Prop :=
  firstSource subnet k ≤ i ∧ i < firstSource subnet k + (subnet.get k).vsources

variable {i : Nat}

theorem owns_unique {k j : Fin subnet.length} (hk : Owns subnet k i)
    (hj : Owns subnet j i) : k = j := by
  refine Fin.ext (range_unique (subnet.map vsources) (i := i) (by simp) (by simp) ?_ ?_)
  · simpa [Owns, firstSource] using hk
  · simpa [Owns, firstSource] using hj

theorem exists_owner (hi : i < (subnet.map Circuit.vsources).sum) : ∃ k, Owns subnet k i := by
  obtain ⟨k, hk, hlo, hhi⟩ := exists_range hi
  refine ⟨⟨k, by simpa using hk⟩, hlo, ?_⟩
  simpa [firstSource] using hhi

variable {k : Fin subnet.length}

theorem row_source_lt {l r : Nat} (hl : l < (subnet.get k).vsources)
    (h : row subnet k (.inr l) = some r) :
    countNodes subnet ≤ r ∧ r < countNodes subnet + (subnet.map Circuit.vsources).sum := by
  have hend : firstSource subnet k + (subnet.get k).vsources
      ≤ (subnet.map vsources).sum := by
    have hsucc := start_succ (subnet.map vsources) (k := k) (by simp)
    have hmono := start_mono (subnet.map vsources) (Nat.succ_le_of_lt k.isLt)
    simpa [firstSource, start, List.take_of_length_le] using hmono
  have heq := some.inj h
  omega

theorem findVoltageSource_eq (hnum : Numbered subnet)
    (hk : Owns subnet k i) : findVoltageSource subnet i = some k := by
  have htest : ∀ j, ((subnet.get j).vsource ≤ i ∧
      (i : Int) ≤ (subnet.get j).vsource + (subnet.get j).vsources - 1) ↔ Owns subnet j i := by
    intro j
    by_cases hpos : 0 < (subnet.get j).vsources
    · rw [hnum j hpos, Owns]
      omega
    · rw [Owns]
      omega
  cases hfind : findVoltageSource subnet i with
  | none =>
    have hno := List.find?_eq_none.mp hfind k (List.mem_finRange k)
    exact absurd ((htest k).mpr hk) (by simpa using hno)
  | some j =>
    have hj := (htest j).mp (by simpa using List.find?_some hfind)
    rw [owns_unique hj hk]

/-- The sum over all voltage sources with number `i` has one term. -/
theorem sum_sources (hk : Owns subnet k i) (f : Fin subnet.length → Nat → K) :
    (∑ j : Fin subnet.length, ∑ l ∈ range (subnet.get j).vsources,
      if firstSource subnet j + l = i then f j l else 0) = f k (i - firstSource subnet k) := by
  obtain ⟨hlo, hhi⟩ := hk
  rw [Fintype.sum_eq_single k, Finset.sum_eq_single (i - firstSource subnet k)]
  · rw [if_pos (by omega)]
  · intro l _ hl
    rw [if_neg (by omega)]
  · intro hl
    exact absurd (mem_range.mpr (by omega)) hl
  · intro j hj
    refine sum_eq_zero fun l hl => if_neg fun heq => hj ?_
    have hlt := mem_range.mp hl
    exact owns_unique ⟨by omega, by omega⟩ ⟨hlo, hhi⟩

end Owners

/-! ## Entry by entry -/

section Entries

variable {K : Type} [AddCommMonoid K] {subnet : List (Circuit K)}

variable {k : Fin subnet.length} {r : Nat}

/-- One row of a circuit's own system, seen from the row `r` of a node: only
ports can be there. -/
theorem sum_indices_node (hr : r < countNodes subnet) (f : ℕ ⊕ ℕ → K) :
    (∑ a ∈ (subnet.get k).indices, if row subnet k a = some r then f a else 0)
      = ∑ p ∈ range (subnet.get k).size,
          if row subnet k (.inl p) = some r then f (.inl p) else 0 := by
  rw [indices, sum_disjSum]
  have hnone : ∀ l ∈ range (subnet.get k).vsources,
      (if row subnet k (.inr l) = some r then f (.inr l) else 0) = 0 := by
    intro l _
    refine if_neg fun h => ?_
    have := some.inj h
    omega
  rw [sum_eq_zero hnone, add_zero]

/-- One row of a circuit's own system, seen from the row of a voltage source:
only voltage sources can be there. -/
theorem sum_indices_source (hgnd : "gnd" ∈ names subnet) (i : Nat) (f : ℕ ⊕ ℕ → K) :
    (∑ a ∈ (subnet.get k).indices,
        if row subnet k a = some (i + countNodes subnet) then f a else 0)
      = ∑ l ∈ range (subnet.get k).vsources,
          if firstSource subnet k + l = i then f (.inr l) else 0 := by
  rw [indices, sum_disjSum]
  have hnone : ∀ p ∈ range (subnet.get k).size,
      (if row subnet k (.inl p) = some (i + countNodes subnet) then f (.inl p) else 0) = 0 := by
    intro p hp
    refine if_neg fun h => ?_
    have := row_port_lt hgnd (mem_range.mp hp) h
    omega
  rw [sum_eq_zero hnone, zero_add]
  refine sum_congr rfl fun l _ => ?_
  have hiff : row subnet k (.inr l) = some (i + countNodes subnet)
      ↔ firstSource subnet k + l = i := by
    rw [row, some.injEq]
    omega
  by_cases h : firstSource subnet k + l = i
  · rw [if_pos h, if_pos (hiff.mpr h)]
  · rw [if_neg h, if_neg fun h' => h (hiff.mp h')]

theorem scatterMatrix_eq (r c : Nat) : scatterMatrix subnet r c =
    ∑ k : Fin subnet.length, ∑ a ∈ (subnet.get k).indices,
      if row subnet k a = some r then
        ∑ b ∈ (subnet.get k).indices,
          if row subnet k b = some c then (subnet.get k).stamp a b else 0
      else 0 := by
  refine sum_congr rfl fun k _ => sum_congr rfl fun a _ => ?_
  by_cases h : row subnet k a = some r
  · rw [if_pos h]
    refine sum_congr rfl fun b _ => ?_
    simp only [h, true_and]
  · rw [if_neg h]
    exact sum_eq_zero fun b _ => if_neg fun h' => h h'.1

variable (hgnd : "gnd" ∈ names subnet)

include hgnd

variable {c : Nat}

theorem entryG (hr : r < countNodes subnet) (hc : c < countNodes subnet) :
    (getNode subnet c).foldl (fun g nc => (getNode subnet r).foldl (fun g nr =>
      if nc.1 = nr.1 then g + (subnet.get nc.1).getY nr.2 nc.2 else g) g) 0
      = scatterMatrix subnet r c := by
  rw [foldl_foldl_add_if, zero_add, sum_getNode hgnd hc, scatterMatrix_eq]
  refine sum_congr rfl fun k _ => ?_
  rw [sum_indices_node hr]
  simp only [eq_comm (a := k), sum_getNode_circuit hgnd hr, sum_indices_node hc]
  exact sum_ite_swap _ _ _ _ _

theorem entryB (hnum : Numbered subnet) (hr : r < countNodes subnet) (hk : Owns subnet k c) :
    (getNode subnet r).foldl (fun val t =>
      if some t.1 = findVoltageSource subnet c then val + (subnet.get t.1).getB t.2 c else val) 0
      = scatterMatrix subnet r (c + countNodes subnet) := by
  have hget : ∀ p, (subnet.get k).getB p c
      = (subnet.get k).stamp (.inl p) (.inr (c - firstSource subnet k)) := by
    intro p
    obtain ⟨hlo, hhi⟩ := hk
    rw [getB, hnum k (by omega), stamp, ← Int.natCast_sub hlo]
    rfl
  rw [foldl_add_if, zero_add, scatterMatrix_eq, findVoltageSource_eq hnum hk]
  simp only [sum_indices_node hr, sum_indices_source hgnd, some.injEq]
  have hright := (sum_congr rfl fun j _ => sum_ite_swap (range (subnet.get j).size)
    (range (subnet.get j).vsources) (fun p => row subnet j (.inl p) = some r)
    (fun l => firstSource subnet j + l = c)
    fun p l => (subnet.get j).stamp (.inl p) (.inr l)).trans
    (sum_sources hk fun j l => ∑ p ∈ range (subnet.get j).size,
      if row subnet j (.inl p) = some r then (subnet.get j).stamp (.inl p) (.inr l) else 0)
  rw [hright, sum_getNode_circuit hgnd hr]
  simp only [hget]

theorem entryC (hnum : Numbered subnet) (hc : c < countNodes subnet) (hk : Owns subnet k r) :
    (getNode subnet c).foldl (fun val t =>
      if some t.1 = findVoltageSource subnet r then val + (subnet.get t.1).getC r t.2 else val) 0
      = scatterMatrix subnet (r + countNodes subnet) c := by
  have hget : ∀ p, (subnet.get k).getC r p
      = (subnet.get k).stamp (.inr (r - firstSource subnet k)) (.inl p) := by
    intro p
    obtain ⟨hlo, hhi⟩ := hk
    rw [getC, hnum k (by omega), stamp, ← Int.natCast_sub hlo]
    rfl
  rw [foldl_add_if, zero_add, scatterMatrix_eq, findVoltageSource_eq hnum hk]
  simp only [sum_indices_source hgnd, sum_indices_node hc, some.injEq]
  rw [sum_sources hk fun j l => ∑ p ∈ range (subnet.get j).size,
    if row subnet j (.inl p) = some c then (subnet.get j).stamp (.inr l) (.inl p) else 0,
    sum_getNode_circuit hgnd hc]
  simp only [hget]

theorem entryD (hnum : Numbered subnet) {k j : Fin subnet.length}
    (hk : Owns subnet k r) (hj : Owns subnet j c) :
    (if findVoltageSource subnet r = findVoltageSource subnet c then
        (findVoltageSource subnet r).map fun k => (subnet.get k).getD r c
      else some 0)
      = some (scatterMatrix subnet (r + countNodes subnet) (c + countNodes subnet)) := by
  rw [scatterMatrix_eq, findVoltageSource_eq hnum hk, findVoltageSource_eq hnum hj]
  simp only [sum_indices_source hgnd]
  rw [sum_sources hk fun j l => ∑ m ∈ range (subnet.get j).vsources,
    if firstSource subnet j + m = c then (subnet.get j).stamp (.inr l) (.inr m) else 0]
  obtain ⟨hlo, hhi⟩ := hj
  by_cases hkj : k = j
  · subst hkj
    obtain ⟨hlo', hhi'⟩ := hk
    rw [if_pos rfl, Finset.sum_eq_single (c - firstSource subnet k), if_pos (by omega)]
    · rw [map_some, getD, hnum k (by omega), stamp, add_sub_assoc,
        ← Int.natCast_sub hlo, ← Int.natCast_sub hlo']
      rfl
    · intro m _ hm
      exact if_neg (by omega)
    · intro hm
      exact absurd (mem_range.mpr (by omega)) hm
  · rw [if_neg fun h => hkj (some.inj h)]
    congr 1
    refine (sum_eq_zero fun m hm => if_neg fun heq => hkj ?_).symm
    have hlt := mem_range.mp hm
    exact owns_unique ⟨by omega, by omega⟩ ⟨hlo, hhi⟩

theorem entryI (hr : r < countNodes subnet) : (getNode subnet r).foldl (fun val t =>
      if (subnet.get t.1).isISource || (subnet.get t.1).isNonLinear then
        val + (subnet.get t.1).getI t.2
      else val) 0 = scatterVector subnet r := by
  rw [foldl_add_if, zero_add, sum_getNode hgnd hr, scatterVector]
  refine sum_congr rfl fun k _ => ?_
  rw [sum_indices_node hr]
  refine sum_congr rfl fun p _ => ?_
  congr 1
  by_cases hflag : ((subnet.get k).isISource || (subnet.get k).isNonLinear)
  · rw [if_pos hflag]
    rfl
  · obtain ⟨hI, hN⟩ := Bool.or_eq_false_iff.mp (Bool.eq_false_iff.mpr hflag)
    rw [if_neg hflag]
    exact ((subnet.get k).no_current hI hN p).symm

theorem entryE (hnum : Numbered subnet) (hk : Owns subnet k r) :
    ((findVoltageSource subnet r).map fun k => (subnet.get k).getE r)
      = some (scatterVector subnet (r + countNodes subnet)) := by
  rw [scatterVector, findVoltageSource_eq hnum hk]
  simp only [sum_indices_source hgnd]
  rw [sum_sources hk fun j l => (subnet.get j).source (.inr l)]
  obtain ⟨hlo, hhi⟩ := hk
  rw [map_some, getE, hnum k (by omega), ← Int.natCast_sub hlo]
  rfl

end Entries

/-! ## Block by block -/

section Blocks

variable {K : Type} [AddCommMonoid K] {subnet : List (Circuit K)} {M : Nat}
  (hgnd : "gnd" ∈ names subnet)

include hgnd

theorem createGMatrix_spec (A : Nat × Nat → K) : ∃ A', createGMatrix subnet A = some A' ∧
    Filled (countNodes subnet) (countNodes subnet) (fun p => (p.2, p.1))
      (fun c r => scatterMatrix subnet r c) A A' := by
  refine fill_product ?_ ?_ A
  · intro c hc r hr
    exact congrArg some (entryG hgnd hr hc)
  · grind

variable (hnum : Numbered subnet) (hM : M = (subnet.map Circuit.vsources).sum)

include hnum hM

theorem createBMatrix_spec (A : Nat × Nat → K) : ∃ A', createBMatrix subnet M A = some A' ∧
    Filled M (countNodes subnet) (fun p => (p.2, p.1 + countNodes subnet))
      (fun c r => scatterMatrix subnet r (c + countNodes subnet)) A A' := by
  refine fill_product ?_ ?_ A
  · intro c hc r hr
    obtain ⟨k, hk⟩ := exists_owner (hM ▸ hc)
    exact congrArg some (entryB hgnd hnum hr hk)
  · grind

theorem createCMatrix_spec (A : Nat × Nat → K) : ∃ A', createCMatrix subnet M A = some A' ∧
    Filled M (countNodes subnet) (fun p => (p.1 + countNodes subnet, p.2))
      (fun r c => scatterMatrix subnet (r + countNodes subnet) c) A A' := by
  refine fill_product ?_ ?_ A
  · intro r hr c hc
    obtain ⟨k, hk⟩ := exists_owner (hM ▸ hr)
    exact congrArg some (entryC hgnd hnum hc hk)
  · grind

theorem createDMatrix_spec (A : Nat × Nat → K) : ∃ A', createDMatrix subnet M A = some A' ∧
    Filled M M (fun p => (p.1 + countNodes subnet, p.2 + countNodes subnet))
      (fun r c => scatterMatrix subnet (r + countNodes subnet) (c + countNodes subnet)) A A' := by
  refine fill_product ?_ ?_ A
  · intro r hr c hc
    obtain ⟨k, hk⟩ := exists_owner (hM ▸ hr)
    obtain ⟨j, hj⟩ := exists_owner (hM ▸ hc)
    exact entryD hgnd hnum hk hj
  · grind

theorem createZVector_spec (z : Nat → K) :
    ∃ z₁ z₂, createIVector subnet z = some z₁ ∧ createEVector subnet M z₁ = some z₂ ∧
      ∀ r < countNodes subnet + M, z₂ r = scatterVector subnet r := by
  obtain ⟨z₁, hz₁, hin₁, -⟩ := @fill_range Nat K _ (countNodes subnet) id _ (scatterVector subnet)
    (fun r hr => congrArg some (entryI hgnd hr)) (fun _ _ h => h) z
  obtain ⟨z₂, hz₂, hin₂, hout₂⟩ :=
    fill_range (fun r => scatterVector subnet (r + countNodes subnet))
    (fun r hr => entryE hgnd hnum (exists_owner (hM ▸ hr)).choose_spec)
    (fun _ _ h => Nat.add_right_cancel h) z₁
  refine ⟨z₁, z₂, hz₁, hz₂, fun r hr => ?_⟩
  by_cases hlt : r < countNodes subnet
  · rw [hout₂ r fun i _ h => by omega]
    exact hin₁ r hlt
  · have h := hin₂ (r - countNodes subnet) (by omega)
    rwa [Nat.sub_add_cancel (by omega)] at h

end Blocks

theorem node_or_source {N M i : ℕ} (hi : i < N + M) : i < N ∨ ∃ j < M, j + N = i := by
  by_cases h : i < N
  · exact Or.inl h
  · exact Or.inr ⟨i - N, by omega, by omega⟩

/-- **The equations are the sum of the stamps.**  For every net the assembly
succeeds, whatever the matrix and the vector held before, and every entry of
the two is the sum of the circuits' own entries scattered to their places. -/
theorem createMatrix_eq_scatter {K : Type} [AddCommMonoid K] (net : Net K) (A : Nat × Nat → K)
    (z : Nat → K) :
    net.numbered.map unnumbered = net.circuits.map unnumbered ∧
      ∃ A' z', net.createMatrix A z = some (A', z') ∧
        ∀ r < countNodes net.numbered + net.countVoltageSources,
          (∀ c < countNodes net.numbered + net.countVoltageSources,
            A' (r, c) = scatterMatrix net.numbered r c) ∧
          z' r = scatterVector net.numbered r := by
  refine ⟨assignVoltageSources_unnumbered 0 net.circuits, ?_⟩
  have hgnd := net.gnd_mem_names
  have hM := net.countVoltageSources_eq
  have hnum := net.numbered_spec
  obtain ⟨A₁, h₁, hG⟩ := createGMatrix_spec hgnd A
  obtain ⟨A₂, h₂, hB⟩ := createBMatrix_spec hgnd hnum hM A₁
  obtain ⟨A₃, h₃, hC⟩ := createCMatrix_spec hgnd hnum hM A₂
  obtain ⟨A₄, h₄, hD⟩ := createDMatrix_spec hgnd hnum hM A₃
  obtain ⟨z₁, z₂, h₅, h₆, hz⟩ := createZVector_spec hgnd hnum hM z
  refine ⟨A₄, z₂, ?_, fun r hr => ⟨fun c hc => ?_, hz r hr⟩⟩
  · rw [Net.createMatrix, Mna.createMatrix, h₁]
    simp only [Option.bind_eq_bind, Option.bind_some, h₂, h₃, h₄, h₅, h₆]
    rfl
  · rcases node_or_source hr with hr' | ⟨r, hr', rfl⟩
    · rw [hD.outside (r, c) fun i _ j _ h => by have := (mk.inj h).1; omega,
        hC.outside (r, c) fun i _ j _ h => by have := (mk.inj h).1; omega]
      rcases node_or_source hc with hc' | ⟨c, hc', rfl⟩
      · rw [hB.outside (r, c) fun i _ j _ h => by have := (mk.inj h).2; omega]
        exact hG.inside c hc' r hr'
      · exact hB.inside c hc' r hr'
    · rcases node_or_source hc with hc' | ⟨c, hc', rfl⟩
      · rw [hD.outside (_, c) fun i _ j _ h => by have := (mk.inj h).2; omega]
        exact hC.inside r hr' c hc'
      · exact hD.inside r hr' c hc'

end Qucs.Mna
