/-
# Storing and recalling a solution

A solver keeps the solution of one analysis for the next one, in a map from names:
`storeSolution` goes through the nodes and then the voltage sources, and
`recallSolution` reads them back in the same order.

* naentry: a pair `(current, value)`
* nasolution, insert: `String → Option (ℤ × K)`, `Lib.Keyed.insert`

A node is stored under its name with `current` 0. A voltage source is stored under
the name of its *circuit*, with its number inside the circuit as `current`; so the
second voltage source of a circuit finds the first one there and is not stored.
Every vector comes back iff there is no such circuit, and the names are
different otherwise (`recallSolution_storeSolution_iff`).

`findVoltageSource` may return a null pointer, which is used without a test: the
functions answer `none` then.
-/
import Qucs.Lib.InPlace
import Qucs.Lib.Keyed
import Qucs.Mna.Stamps

namespace Qucs.Mna

open Lib.Keyed Lib.InPlace List
open List (range)

variable {K : Type}

section Code

variable [Zero K] (subnet : List (Circuit K)) (name : Fin subnet.length → String) (M : ℕ)

def sourceEntry (r : ℕ) : Option (String × ℤ) :=
  (findVoltageSource subnet r).map fun k => (name k, r - (subnet.get k).vsource + 1)

def storeSolution (x : ℕ → K) : Option (String → Option (ℤ × K)) :=
  let N := countNodes subnet
  -- all nodes except the reference node
  let solution := (range N).foldl
    (fun solution r => insert solution ((narray subnet).getD r "") (0, x r)) fun _ => none
  -- all branch currents of voltage sources
  (range M).foldlM (fun solution r =>
    (sourceEntry subnet name r).map fun (vs, vn) => insert solution vs (vn, x (r + N))) solution

def recallSolution (solution : String → Option (ℤ × K)) (x : ℕ → K) : Option (ℕ → K) :=
  let N := countNodes subnet
  let x := (range N).foldl (fun x r => Function.update x r
    (readBack solution ((narray subnet).getD r "") 0 (x r))) x
  (range M).foldlM (fun x r =>
    (sourceEntry subnet name r).map fun (vs, vn) => Function.update x (r + N)
      (readBack solution vs vn (x (r + N)))) x

end Code

/-! ## One loop over all entries -/

section Entries

variable [Zero K] (subnet : List (Circuit K)) (name : Fin subnet.length → String) {M : ℕ}

/-- The name and the number under which an entry of the vector is stored. -/
def entry (i : ℕ) : String × ℤ :=
  if i < countNodes subnet then ((narray subnet).getD i "", 0)
  else (sourceEntry subnet name (i - countNodes subnet)).getD ("", 0)

theorem entry_node {i : ℕ} (hi : i < countNodes subnet) :
    entry subnet name i = ((narray subnet).getD i "", 0) := if_pos hi

theorem entry_source (r : ℕ) :
    entry subnet name (r + countNodes subnet) = (sourceEntry subnet name r).getD ("", 0) := by
  rw [entry, if_neg (by omega), Nat.add_sub_cancel]

variable {subnet name}

theorem foldlM_sources {β : Type} (step : β → ℕ → String × ℤ → β) (b : β)
    (hall : ∀ r < M, (sourceEntry subnet name r).isSome) :
    (range M).foldlM (fun b r => (sourceEntry subnet name r).map fun e =>
        step b (r + countNodes subnet) e)
      ((range (countNodes subnet)).foldl (fun b r => step b r ((narray subnet).getD r "", 0)) b) =
      some ((range (countNodes subnet + M)).foldl
        (fun b i => step b i (entry subnet name i)) b) := by
  induction M with
  | zero =>
    refine congrArg some (foldl_ext _ _ _ fun b i hi => ?_)
    rw [entry_node subnet name (mem_range.mp hi)]
  | succ M ih =>
    obtain ⟨e, he⟩ := Option.isSome_iff_exists.mp (hall M (Nat.lt_succ_self M))
    have hentry : entry subnet name (countNodes subnet + M) = e := by
      rw [Nat.add_comm, entry_source, he, Option.getD_some]
    rw [range_succ, foldlM_append, ih fun r hr => hall r (Nat.lt_succ_of_lt hr),
      ← Nat.add_assoc, range_succ, foldl_append]
    simp [he, hentry, Nat.add_comm M]

theorem storeSolution_eq (hall : ∀ r < M, (sourceEntry subnet name r).isSome) (x : ℕ → K) :
    storeSolution subnet name M x = some (stored (countNodes subnet + M)
      (fun i => (entry subnet name i).1) (fun i => (entry subnet name i).2) x) :=
  foldlM_sources (fun s i e => insert s e.1 (e.2, x i)) _ hall

theorem recallSolution_eq (hall : ∀ r < M, (sourceEntry subnet name r).isSome)
    (solution : String → Option (ℤ × K)) (y : ℕ → K) :
    ∃ z, recallSolution subnet name M solution y = some z ∧ ∀ i < countNodes subnet + M,
      z i = readBack solution (entry subnet name i).1 (entry subnet name i).2 (y i) := by
  refine ⟨_, foldlM_sources (fun x i e => Function.update x i
    (readBack solution e.1 e.2 (x i))) y hall, fun i hi => ?_⟩
  obtain ⟨z, hz, -, hout⟩ := sweep_range id (fun i x => readBack solution
    (entry subnet name i).1 (entry subnet name i).2 (x i)) y (fun _ _ _ _ h => h) hi
  exact hz.trans (by rw [hout i fun j hj => Nat.ne_of_lt hj])

end Entries

/-! ## When every vector comes back -/

section Main

variable [Field K] (net : Net K) (name : Fin net.numbered.length → String)

/-- A name belongs to one entry only: a circuit has at most one voltage source, and
those with one have names of their own. -/
structure Distinct : Prop where
  single : ∀ k, (net.numbered.get k).vsources ≤ 1
  circuits : ∀ k j, 0 < (net.numbered.get k).vsources → 0 < (net.numbered.get j).vsources →
    name k = name j → k = j
  nodes : ∀ k, 0 < (net.numbered.get k).vsources → name k ∉ narray net.numbered

variable {net name}

theorem source_lt {k : Fin net.numbered.length} {l : ℕ} (hl : l < (net.numbered.get k).vsources) :
    firstSource net.numbered k + l < net.countVoltageSources := by
  have hrow := (row_source_lt hl rfl).2
  rw [← net.countVoltageSources_eq] at hrow
  omega

theorem entry_owned {k : Fin net.numbered.length} {r : ℕ} (hk : Owns net.numbered k r) :
    (entry net.numbered name (r + countNodes net.numbered)).1 = name k := by
  rw [entry_source, sourceEntry, findVoltageSource_eq net.numbered_spec hk]
  rfl

theorem exists_source {i : ℕ} (hi : i < countNodes net.numbered + net.countVoltageSources)
    (hN : countNodes net.numbered ≤ i) :
    ∃ r k, i = r + countNodes net.numbered ∧ Owns net.numbered k r ∧
      0 < (net.numbered.get k).vsources := by
  have hr : i - countNodes net.numbered < (net.numbered.map Circuit.vsources).sum := by
    rw [← net.countVoltageSources_eq]
    omega
  obtain ⟨k, hk⟩ := exists_owner hr
  have hpos : 0 < (net.numbered.get k).vsources := by
    obtain ⟨hlo, hhi⟩ := hk
    omega
  exact ⟨i - countNodes net.numbered, k, by omega, hk, hpos⟩

theorem sourceEntry_isSome {r : ℕ} (hr : r < net.countVoltageSources) :
    (sourceEntry net.numbered name r).isSome := by
  obtain ⟨k, hk⟩ := exists_owner (net.countVoltageSources_eq ▸ hr)
  rw [sourceEntry, findVoltageSource_eq net.numbered_spec hk]
  rfl

theorem entry_node_mem {i : ℕ} (hi : i < countNodes net.numbered) :
    (entry net.numbered name i).1 ∈ narray net.numbered := by
  have hlen := length_narray net.gnd_mem_names
  rw [entry_node _ _ hi, ← getElem_eq_getD (h := by omega)]
  exact getElem_mem _

theorem keys_injective_iff :
    (∀ i < countNodes net.numbered + net.countVoltageSources,
      ∀ j < countNodes net.numbered + net.countVoltageSources,
        (entry net.numbered name i).1 = (entry net.numbered name j).1 → i = j) ↔
      Distinct net name := by
  have hlen := length_narray net.gnd_mem_names
  have hin : ∀ {k : Fin net.numbered.length} {l : ℕ}, l < (net.numbered.get k).vsources →
      firstSource net.numbered k + l + countNodes net.numbered <
        countNodes net.numbered + net.countVoltageSources := by
    intro k l hl
    have := source_lt hl
    omega
  have howns : ∀ {k : Fin net.numbered.length} {l : ℕ}, l < (net.numbered.get k).vsources →
      Owns net.numbered k (firstSource net.numbered k + l) :=
    fun hl => ⟨Nat.le_add_right _ _, Nat.add_lt_add_left hl _⟩
  constructor
  · intro h
    constructor
    case single =>
      intro k
      by_contra hmany
      have h₀ : 0 < (net.numbered.get k).vsources := by omega
      have h₁ : 1 < (net.numbered.get k).vsources := by omega
      have heq := h _ (hin h₀) _ (hin h₁)
        ((entry_owned (howns h₀)).trans (entry_owned (howns h₁)).symm)
      omega
    case circuits =>
      intro k j hk hj hname
      have heq := h _ (hin hk) _ (hin hj)
        ((entry_owned (howns hk)).trans (hname.trans (entry_owned (howns hj)).symm))
      have hfirst : firstSource net.numbered k + 0 = firstSource net.numbered j + 0 := by omega
      exact owns_unique (howns hk) (hfirst ▸ howns hj)
    case nodes =>
      intro k hk hmem
      obtain ⟨i, hi, hget⟩ := getElem_of_mem hmem
      have hi' : i < countNodes net.numbered := by omega
      have hkey : (entry net.numbered name i).1 = name k := by
        rw [entry_node _ _ hi', ← getElem_eq_getD]
        exact hget
      have heq := h i (by omega) _ (hin hk) (hkey.trans (entry_owned (howns hk)).symm)
      omega
  · intro h i hi j hj hkey
    have hmixed : ∀ {i j : ℕ}, i < countNodes net.numbered → countNodes net.numbered ≤ j →
        j < countNodes net.numbered + net.countVoltageSources →
        (entry net.numbered name i).1 ≠ (entry net.numbered name j).1 := by
      intro i j hi hN hj hkey
      obtain ⟨r, k, rfl, hk, hpos⟩ := exists_source hj hN
      rw [entry_owned hk] at hkey
      exact h.nodes k hpos (hkey ▸ entry_node_mem hi)
    rcases Nat.lt_or_ge i (countNodes net.numbered) with hi' | hi' <;>
      rcases Nat.lt_or_ge j (countNodes net.numbered) with hj' | hj'
    · rw [entry_node _ _ hi', entry_node _ _ hj', ← getElem_eq_getD (h := by omega),
        ← getElem_eq_getD (h := by omega)] at hkey
      exact (nodup_narray net.numbered).getElem_inj_iff.mp hkey
    · exact absurd hkey (hmixed hi' hj' hj)
    · exact absurd hkey.symm (hmixed hj' hi' hi)
    · obtain ⟨r, k, rfl, hk, hkpos⟩ := exists_source hi hi'
      obtain ⟨q, l, rfl, hl, hlpos⟩ := exists_source hj hj'
      rw [entry_owned hk, entry_owned hl] at hkey
      obtain rfl := h.circuits k l hkpos hlpos hkey
      have hone := h.single k
      obtain ⟨hlo, hhi⟩ := hk
      obtain ⟨hlo', hhi'⟩ := hl
      omega

/-- **Storing and recalling restores every solution, over whatever the vector holds,
iff the names are distinct.** -/
theorem recallSolution_storeSolution_iff (net : Net K) (name : Fin net.numbered.length → String) :
    (∀ x y, ∃ solution z, storeSolution net.numbered name net.countVoltageSources x =
      some solution ∧
      recallSolution net.numbered name net.countVoltageSources solution y = some z ∧
      ∀ i < countNodes net.numbered + net.countVoltageSources, z i = x i) ↔
      Distinct net name := by
  have hall : ∀ r < net.countVoltageSources, (sourceEntry net.numbered name r).isSome :=
    fun r hr => sourceEntry_isSome hr
  rw [← keys_injective_iff, ← readBack_stored_iff (α := K)
    (fun i => (entry net.numbered name i).1) fun i => (entry net.numbered name i).2]
  refine forall_congr' fun x => forall_congr' fun y => ?_
  obtain ⟨z, hz, hentries⟩ := recallSolution_eq hall (stored _ (fun i =>
    (entry net.numbered name i).1) (fun i => (entry net.numbered name i).2) x) y
  constructor
  · rintro ⟨solution, z', hstore, hrecall, hz'⟩ i hi
    obtain rfl := Option.some.inj (hstore.symm.trans (storeSolution_eq hall x))
    obtain rfl := Option.some.inj (hrecall.symm.trans hz)
    rw [← hentries i hi, hz' i hi]
  · intro h
    exact ⟨_, z, storeSolution_eq hall x, hz, fun i hi => (hentries i hi).trans (h i hi)⟩

/-- A transformer: two voltage sources inside one circuit. -/
def transformer : Circuit ℚ where
  size := 2
  node := fun i => if i = 0 then "in" else "gnd"
  vsource := -1
  vsources := 2
  matrixY := 0
  matrixB := 0
  matrixC := 0
  matrixD := 0
  vectorI := 0
  vectorE := 0
  isISource := false
  isNonLinear := false
  no_current := fun _ _ _ => rfl

def transformerNet : Net ℚ where
  circuits := [transformer]
  grounded := ⟨transformer, by simp, 1, by decide, rfl⟩

/-- The second branch current is lost. -/
theorem transformer_not_restored :
    ¬ ∃ solution z,
      storeSolution transformerNet.numbered (fun _ => "TR1") transformerNet.countVoltageSources
        (fun i => i + 1) = some solution ∧
      recallSolution transformerNet.numbered (fun _ => "TR1") transformerNet.countVoltageSources
        solution 0 = some z ∧
      ∀ i < countNodes transformerNet.numbered + transformerNet.countVoltageSources,
        z i = (i : ℚ) + 1 := by
  rintro ⟨solution, z, hstore, hrecall, hz⟩
  have hback : (storeSolution transformerNet.numbered (fun _ => "TR1")
      transformerNet.countVoltageSources (fun i => (i : ℚ) + 1)).bind (fun solution =>
      (recallSolution transformerNet.numbered (fun _ => "TR1")
        transformerNet.countVoltageSources solution 0).map fun z => z 2) = some 0 := by decide
  rw [hstore, Option.bind_some, hrecall, Option.map_some, hz 2 (by decide)] at hback
  exact absurd hback (by norm_num)

end Main

end Qucs.Mna
