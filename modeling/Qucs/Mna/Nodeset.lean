/-
# Where nodesets go in the start vector

`nasolver::applyNodeset` prepares the solution vector for a nonlinear analysis:
the entry of every node with a nodeset gets the voltage of the nodeset.

The node list numbers the nodes from 1, ground has number 0; the row of a node is
one less (`getNode`, which `saveNodeVoltages` uses, adds the one). `applyNodeset`
takes the number for the row. So a nodeset sets the entry of the *next* node, or a
branch current, or throws at the last node of a net without voltage sources, and a
nodeset at ground sets the first node. What is right about it is the case in which
nothing is to be seen of this (`applyNodeset_initialises_iff`).

That the vector is copied to the previous one and to the circuits afterwards, and
the warning about a name that is no node, are left out.
-/
import Qucs.Mna.Stamps

namespace Qucs.Mna

open List Option

variable {K : Type}

/-- A node, and its initial voltage. -/
structure Nodeset (K : Type) where
  name : String
  value : K
  deriving DecidableEq, Repr

/-! ## The code -/

section Code

variable [Zero K]

variable (subnet : List (Circuit K))

/-- The `n` of `nodelist::getNode`, if there is a node with that name. -/
def nodeNumber (name : String) : Option ℕ :=
  if (uniqueNames subnet).contains name then
    some (if name = "gnd" then 0 else (narray subnet).idxOf name + 1)
  else none

/-- `tvector::set`, and `none` where it throws. -/
def setEntry (size : ℕ) (x : ℕ → K) (i : ℕ) (z : K) : Option (ℕ → K) :=
  if i < size then some (Function.update x i z) else none

def applyOne (size : ℕ) (x : ℕ → K) (n : Nodeset K) : Option (ℕ → K) :=
  match nodeNumber subnet n.name with
  | some i => setEntry size x i n.value
  | none => some x

/-- All of them, on what is kept of the solution. -/
def applyNodeset (M : ℕ) (nokeep : Bool) (nodesets : List (Nodeset K))
    (x : ℕ → K) : Option (ℕ → K) :=
  let size := countNodes subnet + M
  let x := if nokeep then fun i => if i < size then 0 else x i else x
  nodesets.foldlM (applyOne subnet size) x

end Code

/-! ## What it should do -/

section Purpose

/-- The voltage of the last nodeset with some property. -/
def lastValue (p : Nodeset K → Bool) (nodesets : List (Nodeset K)) : Option K :=
  (nodesets.reverse.find? p).map Nodeset.value

def nodesetOf (nodesets : List (Nodeset K)) (name : String) : Option K :=
  lastValue (fun n => n.name == name) nodesets

variable [Zero K]

/-- What a row keeps without a nodeset. -/
def kept (nokeep : Bool) (x : ℕ → K) (i : ℕ) : K := if nokeep then 0 else x i

/-- The entry of a row in the start vector: the nodeset of its node; without one, and
for a branch current, what was there or zero. -/
def wanted (subnet : List (Circuit K)) (nokeep : Bool) (nodesets : List (Nodeset K)) (x : ℕ → K)
    (i : ℕ) : K :=
  if i < countNodes subnet then
    (nodesetOf nodesets ((narray subnet).getD i "")).getD (kept nokeep x i)
  else kept nokeep x i

def Initialises (subnet : List (Circuit K)) (M : ℕ) (nokeep : Bool) (nodesets : List (Nodeset K))
    (x : ℕ → K) : Prop :=
  ∃ x', applyNodeset subnet M nokeep nodesets x = some x' ∧
    ∀ i < countNodes subnet + M, x' i = wanted subnet nokeep nodesets x i

end Purpose

/-! ## What it does -/

section Last

variable {p : Nodeset K → Bool} {nodesets : List (Nodeset K)}

theorem lastValue_concat (n : Nodeset K) :
    lastValue p (nodesets ++ [n]) = if p n then some n.value else lastValue p nodesets := by
  simp only [lastValue, reverse_append, reverse_singleton, singleton_append, find?_cons]
  cases p n <;> rfl

theorem exists_of_lastValue {v : K} (h : lastValue p nodesets = some v) :
    ∃ n ∈ nodesets, p n := by
  obtain ⟨n, hn, -⟩ := map_eq_some_iff.mp h
  exact ⟨n, mem_reverse.mp (mem_of_find?_eq_some hn), find?_some hn⟩

theorem exists_lastValue {n : Nodeset K} (hn : n ∈ nodesets) (hp : p n) :
    ∃ v, lastValue p nodesets = some v := by
  have hfind : (nodesets.reverse.find? p).isSome := find?_isSome.mpr ⟨n, mem_reverse.mpr hn, hp⟩
  obtain ⟨m, hm⟩ := isSome_iff_exists.mp hfind
  exact ⟨m.value, congrArg (Option.map Nodeset.value) hm⟩

theorem lastValue_congr {q : Nodeset K → Bool} (h : ∀ n, p n = q n) :
    lastValue p nodesets = lastValue q nodesets := by
  rw [funext h]

end Last

section Effect

variable [Zero K] {subnet : List (Circuit K)}

/-- The voltage of the last nodeset on the node with that number. -/
def numberedValue (subnet : List (Circuit K)) (nodesets : List (Nodeset K)) (i : ℕ) : Option K :=
  lastValue (fun n => nodeNumber subnet n.name == some i) nodesets

/-- The loop ends if every number is inside the vector, and the last one wins. -/
theorem foldlM_applyOne {size : ℕ} {nodesets : List (Nodeset K)} {x x' : ℕ → K} :
    nodesets.foldlM (applyOne subnet size) x = some x' ↔
      (∀ n ∈ nodesets, ∀ i, nodeNumber subnet n.name = some i → i < size) ∧
        x' = fun i => (numberedValue subnet nodesets i).getD (x i) := by
  induction nodesets using reverseRecOn generalizing x' with
  | nil =>
    simp only [foldlM_nil, not_mem_nil, false_implies, implies_true, true_and]
    exact ⟨fun h => (some.inj h).symm, fun h => congrArg some h.symm⟩
  | append_singleton nodesets n ih =>
    have hvalue : ∀ i, numberedValue subnet (nodesets ++ [n]) i =
        if nodeNumber subnet n.name = some i then some n.value
        else numberedValue subnet nodesets i := by
      intro i
      simp only [numberedValue, lastValue_concat, beq_iff_eq]
    simp only [foldlM_append, foldlM_cons, foldlM_nil, bind_eq_bind,
      bind_eq_some_iff, ih, mem_append, mem_singleton, hvalue]
    constructor
    · rintro ⟨x₁, ⟨hin, rfl⟩, x₂, hone, hx'⟩
      obtain rfl := some.inj hx'
      cases hnumber : nodeNumber subnet n.name with
      | none =>
        simp only [applyOne, hnumber, some.injEq] at hone
        refine ⟨?_, by simp [← hone]⟩
        rintro m (hm | rfl) i hi
        · exact hin m hm i hi
        · simp [hnumber] at hi
      | some j =>
        simp only [applyOne, hnumber, setEntry, ite_none_right_eq_some, some.injEq] at hone
        obtain ⟨hj, rfl⟩ := hone
        refine ⟨?_, ?_⟩
        · rintro m (hm | rfl) i hi
          · exact hin m hm i hi
          · rw [hnumber] at hi
            exact some.inj hi ▸ hj
        · funext i
          by_cases hij : i = j
          · simp [hij]
          · simp [hij, Ne.symm hij]
    · rintro ⟨hin, rfl⟩
      refine ⟨_, ⟨fun m hm => hin m (.inl hm), rfl⟩, _, ?_, rfl⟩
      cases hnumber : nodeNumber subnet n.name with
      | none => simp [applyOne, hnumber]
      | some j =>
        simp only [applyOne, hnumber, setEntry, if_pos (hin n (.inr rfl) j hnumber), some.injEq]
        funext i
        by_cases hij : i = j
        · simp [hij]
        · simp [hij, Ne.symm hij]

theorem applyNodeset_eq_some {M : ℕ} {nokeep : Bool} {nodesets : List (Nodeset K)}
    {x x' : ℕ → K} (h : applyNodeset subnet M nokeep nodesets x = some x') {i : ℕ}
    (hi : i < countNodes subnet + M) :
    x' i = (numberedValue subnet nodesets i).getD (kept nokeep x i) := by
  obtain ⟨-, rfl⟩ := foldlM_applyOne.mp h
  cases nokeep <;> simp [kept, hi]

end Effect

/-! ## Numbers and rows -/

section Numbers

variable [Zero K] {subnet : List (Circuit K)}

theorem nodeNumber_eq_zero {name : String} (h : nodeNumber subnet name = some 0) :
    name = "gnd" := by
  simp only [nodeNumber, ite_none_right_eq_some, some.injEq] at h
  by_contra hg
  simp [hg] at h

theorem nodeNumber_eq_succ {i : ℕ} (hi : i < (narray subnet).length) {name : String} :
    nodeNumber subnet name = some (i + 1) ↔ name = (narray subnet)[i] := by
  simp only [nodeNumber, contains_iff_mem, ite_none_right_eq_some, some.injEq]
  constructor
  · rintro ⟨hmem, hnumber⟩
    have hg : name ≠ "gnd" := by
      rintro rfl
      simp at hnumber
    have hmem' := mem_narray.mpr ⟨mem_uniqueNames.mp hmem, hg⟩
    simp only [if_neg hg, Nat.add_right_cancel_iff] at hnumber
    subst hnumber
    exact (getElem_idxOf (idxOf_lt_length_iff.mpr hmem')).symm
  · rintro rfl
    obtain ⟨hmem, hg⟩ := mem_narray.mp (getElem_mem hi)
    refine ⟨mem_uniqueNames.mpr hmem, ?_⟩
    rw [if_neg hg, (nodup_narray subnet).idxOf_getElem]

theorem nodeNumber_le {name : String} {i : ℕ} (h : nodeNumber subnet name = some i) :
    i ≤ (narray subnet).length := by
  simp only [nodeNumber, contains_iff_mem, ite_none_right_eq_some, some.injEq] at h
  obtain ⟨hmem, rfl⟩ := h
  split
  case isTrue => exact Nat.zero_le _
  case isFalse hg =>
    exact idxOf_lt_length_iff.mpr (mem_narray.mpr ⟨mem_uniqueNames.mp hmem, hg⟩)

theorem nodesetOf_row {i : ℕ} (hi : i < (narray subnet).length) (nodesets : List (Nodeset K)) :
    nodesetOf nodesets ((narray subnet).getD i "") = numberedValue subnet nodesets (i + 1) := by
  refine lastValue_congr fun n => ?_
  have hget : (narray subnet).getD i "" = (narray subnet)[i] := (getElem_eq_getD "").symm
  rw [hget, Bool.eq_iff_iff, beq_iff_eq, beq_iff_eq]
  exact (nodeNumber_eq_succ hi).symm

/-- The nodeset on a node, by its name or by its number. -/
theorem nodesetOf_eq_numberedValue {name : String} {i : ℕ} (h : nodeNumber subnet name = some i)
    (nodesets : List (Nodeset K)) : nodesetOf nodesets name = numberedValue subnet nodesets i := by
  refine lastValue_congr fun n => ?_
  rw [Bool.eq_iff_iff, beq_iff_eq, beq_iff_eq]
  constructor
  · rintro rfl
    exact h
  · intro hn
    cases i with
    | zero => rw [nodeNumber_eq_zero h, nodeNumber_eq_zero hn]
    | succ i =>
      have hi := nodeNumber_le h
      rw [(nodeNumber_eq_succ hi).mp h, (nodeNumber_eq_succ hi).mp hn]

end Numbers

/-! ## When it is right -/

section Main

variable [Field K]

/-- A nodeset on a node of the net asks for zero where everything is set to zero, and
its number is inside the vector. -/
def Harmless (subnet : List (Circuit K)) (M : ℕ) (nokeep : Bool) (nodesets : List (Nodeset K)) :
    Prop :=
  ∀ n ∈ nodesets, ∀ i, nodeNumber subnet n.name = some i →
    i < countNodes subnet + M ∧ nokeep ∧ nodesetOf nodesets n.name = some 0

variable {subnet : List (Circuit K)} {M : ℕ} {nokeep : Bool} {nodesets : List (Nodeset K)}

theorem eq_zero_of_kept {v : K} {i : ℕ} (h : ∀ x, v = kept nokeep x i) : nokeep ∧ v = 0 := by
  cases nokeep with
  | true => exact ⟨rfl, h 0⟩
  | false =>
    have h₀ : v = 0 := h fun _ => 0
    have h₁ : v = 1 := h fun _ => 1
    exact absurd (h₀.symm.trans h₁) zero_ne_one

/-- From the last number down: a nodeset shows in the row of the next node. -/
theorem numberedValue_eq_zero (hgnd : "gnd" ∈ names subnet)
    (h : ∀ x, Initialises subnet M nokeep nodesets x)
    (hin : ∀ n ∈ nodesets, ∀ i, nodeNumber subnet n.name = some i → i < countNodes subnet + M) :
    ∀ d i, i + d = countNodes subnet → ∀ v, numberedValue subnet nodesets i = some v →
      nokeep ∧ v = 0 := by
  have hrow : ∀ i < countNodes subnet + M, ∀ v, numberedValue subnet nodesets i = some v →
      ∀ x, v = wanted subnet nokeep nodesets x i := by
    intro i hi v hv x
    obtain ⟨x', happly, hx'⟩ := h x
    rw [← hx' i hi, applyNodeset_eq_some happly hi, hv, getD_some]
  have hlen := length_narray hgnd
  intro d
  induction d with
  | zero =>
    intro i hi v hv
    obtain ⟨n, hn, hnumber⟩ := exists_of_lastValue hv
    have hsize := hin n hn i (by simpa using hnumber)
    refine eq_zero_of_kept (i := i) fun x => ?_
    rw [hrow i hsize v hv x, wanted, if_neg (by omega)]
  | succ d ih =>
    intro i hi v hv
    have hwanted : ∀ x, v = (numberedValue subnet nodesets (i + 1)).getD (kept nokeep x i) := by
      intro x
      rw [hrow i (by omega) v hv x, wanted, if_pos (by omega), nodesetOf_row (by omega)]
    cases hnext : numberedValue subnet nodesets (i + 1) with
    | none => exact eq_zero_of_kept fun x => by simpa [hnext] using hwanted x
    | some v' =>
      obtain ⟨hkeep, hzero⟩ := ih (i + 1) (by omega) v' hnext
      have hv' : v = v' := by simpa [hnext] using hwanted 0
      exact ⟨hkeep, hv'.trans hzero⟩

theorem Harmless.initialises (hgnd : "gnd" ∈ names subnet) (h : Harmless subnet M nokeep nodesets)
    (x : ℕ → K) : Initialises subnet M nokeep nodesets x := by
  have hvalue : ∀ i j, (numberedValue subnet nodesets i).getD (kept nokeep x j) =
      kept nokeep x j := by
    intro i j
    cases hv : numberedValue subnet nodesets i with
    | none => rfl
    | some v =>
      obtain ⟨n, hn, hnumber⟩ := exists_of_lastValue hv
      have hnumber' : nodeNumber subnet n.name = some i := by simpa using hnumber
      obtain ⟨-, hkeep, hzero⟩ := h n hn i hnumber'
      rw [nodesetOf_eq_numberedValue hnumber', hv, some.injEq] at hzero
      simp [kept, hkeep, hzero]
  obtain ⟨x', happly⟩ : ∃ x', applyNodeset subnet M nokeep nodesets x = some x' :=
    ⟨_, foldlM_applyOne.mpr ⟨fun n hn i hi => (h n hn i hi).1, rfl⟩⟩
  refine ⟨x', happly, fun i hi => ?_⟩
  rw [applyNodeset_eq_some happly hi, hvalue, wanted]
  split
  case isTrue hlt =>
    rw [nodesetOf_row (by rwa [length_narray hgnd]), hvalue]
  case isFalse => rfl

/-- **Nodesets initialise their nodes, whatever the vector held, iff they are
harmless.** -/
theorem applyNodeset_initialises_iff (net : Net K) (nokeep : Bool) (nodesets : List (Nodeset K)) :
    (∀ x, Initialises net.numbered net.countVoltageSources nokeep nodesets x) ↔
      Harmless net.numbered net.countVoltageSources nokeep nodesets := by
  refine ⟨fun h n hn i hi => ?_, fun h x => h.initialises net.gnd_mem_names x⟩
  obtain ⟨x', happly, -⟩ := h 0
  have hin := (foldlM_applyOne.mp happly).1
  obtain ⟨v, hv⟩ : ∃ v, numberedValue net.numbered nodesets i = some v :=
    exists_lastValue hn (by simpa using hi)
  have hle : i ≤ countNodes net.numbered := length_narray net.gnd_mem_names ▸ nodeNumber_le hi
  obtain ⟨hkeep, rfl⟩ := numberedValue_eq_zero net.gnd_mem_names h hin
    (countNodes net.numbered - i) i (by omega) v hv
  exact ⟨hin n hn i hi, hkeep, (nodesetOf_eq_numberedValue hi nodesets).trans hv⟩

theorem no_current_zero : ∀ port, (0 : ℕ → ℚ) port = 0 := fun _ => rfl

/-- A circuit with two ports and nothing in it. -/
def twoPort (a b : String) : Circuit ℚ where
  size := 2
  node := fun i => if i = 0 then a else b
  vsource := -1
  vsources := 0
  matrixY := 0
  matrixB := 0
  matrixC := 0
  matrixD := 0
  vectorI := 0
  vectorE := 0
  isISource := false
  isNonLinear := false
  no_current := fun _ _ => no_current_zero

def ladder : Net ℚ where
  circuits := [twoPort "in" "out", twoPort "out" "gnd"]
  grounded := ⟨twoPort "out" "gnd", by simp, 1, by decide, rfl⟩

/-- A nodeset on the node of the first row sets the second row. -/
theorem applyNodeset_ladder : ¬ Initialises ladder.numbered ladder.countVoltageSources true
    [⟨"out", 5⟩] 0 := by
  rintro ⟨x', happly, hx'⟩
  have hrow := hx' 0 (by decide)
  rw [applyNodeset_eq_some happly (by decide)] at hrow
  exact absurd hrow (by decide)

end Main

end Qucs.Mna
