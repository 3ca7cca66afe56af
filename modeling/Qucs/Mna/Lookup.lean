/-
# The voltage of a node by its label

`interface/e_trsolver.cpp`, `nasolver.cpp`, `nodelist.cpp`.
A co-simulation asks the transient solver for the voltage of a node by its label,
while the circuits get theirs from the solution vector directly.

The three traversals do not agree. `assignNodes` numbers the nodes from 1, and the
row of a node is one less than its number, as `saveNodeVoltages` has it; `getNodeV`
takes the number for the row. So the label of a node gives the voltage of the *next*
node, that of the last node a branch current, or there is no such entry, and ground
is not zero but the first node (`getNodeV_saved_iff`).
-/
import Qucs.Mna.Nodeset

namespace Qucs.Mna

open List

section Code

variable {K : Type} [Zero K] (subnet : List (Circuit K))

def getNodeNr (label : String) : ℤ :=
  match nodeNumber subnet label with
  | some n => n
  | none => -1

/-- `tvector::get`, and `none` where it reads outside. -/
def getEntry (size : ℕ) (x : ℕ → K) (r : ℤ) : Option K :=
  if 0 ≤ r ∧ r < size then some (x r.toNat) else none

/-- What is returned, and the voltage where it is set. -/
def getNodeV (M : ℕ) (x : ℕ → K) (label : String) : Option (ℤ × Option K) :=
  let r := getNodeNr subnet label
  if r = -1 then some (r, none)
  else (getEntry (countNodes subnet + M) x r).map fun v => (0, some v)

variable {subnet}

/-- `setV` at some circuit nodes. -/
def setV (V : Fin subnet.length × ℕ → K) (ts : List (Fin subnet.length × ℕ)) (v : K) :
    Fin subnet.length × ℕ → K :=
  ts.foldl (fun V t => Function.update V t v) V

/-- All nodes, the reference node last. -/
def saveNodeVoltages (x : ℕ → K) (V : Fin subnet.length × ℕ → K) : Fin subnet.length × ℕ → K :=
  let V := (range (countNodes subnet)).foldl (fun V r => setV V (getNode subnet r) (x r)) V
  setV V (terminals subnet "gnd") 0

end Code

/-! ## What the circuits get -/

section Saved

variable {K : Type} [Zero K] {subnet : List (Circuit K)} {V : Fin subnet.length × ℕ → K}
  {t : Fin subnet.length × ℕ} {label : String}

theorem setV_apply (ts : List (Fin subnet.length × ℕ)) (v : K) :
    setV V ts v t = if t ∈ ts then v else V t := by
  induction ts generalizing V with
  | nil => rfl
  | cons u ts ih =>
    rw [setV, foldl_cons, ← setV, ih]
    by_cases hu : t = u
    · simp [hu]
    · simp [hu]

theorem mem_terminals :
    t ∈ terminals subnet label ↔ t.2 < (subnet.get t.1).size ∧
      (subnet.get t.1).node t.2 = label := by
  obtain ⟨k, i⟩ := t
  simp [terminals]

/-- After some rows the circuit nodes of row `n` have its entry, once it was reached. -/
theorem foldl_setV {n : ℕ} (hn : n < (narray subnet).length) (ht : t ∈ getNode subnet n)
    (x : ℕ → K) : ∀ m ≤ (narray subnet).length,
      (range m).foldl (fun V r => setV V (getNode subnet r) (x r)) V t =
        if n < m then x n else V t := by
  intro m
  induction m with
  | zero => intro _; rfl
  | succ m ih =>
    intro hm
    rw [range_succ, foldl_append, foldl_cons, foldl_nil, setV_apply, ih (by omega)]
    have hrow : t ∈ getNode subnet m ↔ m = n := by
      refine ⟨fun h => ?_, fun h => h ▸ ht⟩
      have hname := (mem_terminals.mp h).2.symm.trans (mem_terminals.mp ht).2
      rw [← getElem_eq_getD (h := hm), ← getElem_eq_getD (h := hn)] at hname
      exact (nodup_narray subnet).getElem_inj_iff.mp hname
    by_cases hmn : m = n
    · rw [if_pos (hrow.mpr hmn), if_pos (by omega), hmn]
    · rw [if_neg fun h => hmn (hrow.mp h)]
      exact if_congr (by omega) rfl rfl

def voltage (x : ℕ → K) : ℕ → K
  | 0 => 0
  | n + 1 => x n

theorem saveNodeVoltages_apply (hgnd : "gnd" ∈ names subnet) (x : ℕ → K) {n : ℕ}
    (hn : nodeNumber subnet label = some n) (ht : t ∈ terminals subnet label) :
    saveNodeVoltages x V t = voltage x n := by
  rw [saveNodeVoltages, setV_apply]
  cases n with
  | zero =>
    rw [nodeNumber_eq_zero hn] at ht
    exact if_pos ht
  | succ n =>
    have hlt : n < (narray subnet).length := nodeNumber_le hn
    obtain rfl := (nodeNumber_eq_succ hlt).mp hn
    have hground : t ∉ terminals subnet "gnd" := fun h =>
      (mem_narray.mp (getElem_mem hlt)).2
        ((mem_terminals.mp ht).2.symm.trans (mem_terminals.mp h).2)
    have hrow : t ∈ getNode subnet n := by rwa [getNode, ← getElem_eq_getD]
    rw [if_neg hground, ← length_narray hgnd, foldl_setV hlt hrow x _ le_rfl, if_pos hlt]
    rfl

end Saved

/-! ## What the label gives -/

section Main

variable {K : Type} [Zero K]

/-- The label is found, nothing is read outside of the solution vector, and what is
returned is what every circuit node there has afterwards. -/
def Reports (subnet : List (Circuit K)) (M : ℕ) (x : ℕ → K) (label : String) : Prop :=
  ∃ v, getNodeV subnet M x label = some (0, some v) ∧
    ∀ V, ∀ t ∈ terminals subnet label, saveNodeVoltages x V t = v

/-- **A label gives the voltage of its node iff** the solution vector has an
entry after that of the node (for ground: a first entry), with the same value. -/
theorem getNodeV_saved_iff (net : Net K) (x : ℕ → K) {label : String}
    (hlabel : label ∈ names net.numbered) :
    Reports net.numbered net.countVoltageSources x label ↔
      ∃ n, nodeNumber net.numbered label = some n ∧
        n < countNodes net.numbered + net.countVoltageSources ∧ x n = voltage x n := by
  obtain ⟨n, hn⟩ : ∃ n, nodeNumber net.numbered label = some n :=
    ⟨_, if_pos (contains_iff_mem.mpr (mem_uniqueNames.mpr hlabel))⟩
  obtain ⟨t, ht⟩ : ∃ t, t ∈ terminals net.numbered label := by
    obtain ⟨c, hc, i, hi, hname⟩ := mem_names.mp hlabel
    obtain ⟨k, rfl⟩ := get_of_mem hc
    exact ⟨(k, i), mem_terminals.mpr ⟨hi, hname⟩⟩
  have hsaved := fun V t => saveNodeVoltages_apply (V := V) (t := t) net.gnd_mem_names x hn
  have hget : getNodeV net.numbered net.countVoltageSources x label =
      if n < countNodes net.numbered + net.countVoltageSources then some (0, some (x n))
      else none := by
    have hnr : getNodeNr net.numbered label = n := by rw [getNodeNr, hn]
    have hpos : (n : ℤ) ≠ -1 := by omega
    rw [getNodeV, hnr, if_neg hpos, getEntry]
    by_cases hlt : n < countNodes net.numbered + net.countVoltageSources
    · rw [if_pos hlt, if_pos ⟨by omega, by omega⟩]
      rfl
    · rw [if_neg hlt, if_neg (by omega)]
      rfl
  rw [Reports, hget]
  constructor
  · rintro ⟨v, hv, hall⟩
    obtain ⟨hlt, hv⟩ := Option.ite_none_right_eq_some.mp hv
    refine ⟨n, hn, hlt, ?_⟩
    rw [← hsaved 0 t ht, hall 0 t ht]
    exact Option.some.inj (Prod.mk.inj (Option.some.inj hv)).2
  · rintro ⟨m, hm, hlt, hx⟩
    obtain rfl := Option.some.inj (hn.symm.trans hm)
    refine ⟨x n, if_pos hlt, fun V t ht => ?_⟩
    rw [hsaved V t ht, hx]

/-- With 5 V in both rows the label of the first row gives 5 V. -/
theorem getNodeV_saved_ladder : "out" ∈ names ladder.numbered ∧
    Reports ladder.numbered ladder.countVoltageSources (fun _ => 5) "out" :=
  ⟨by decide, (getNodeV_saved_iff ladder _ (by decide)).mpr ⟨1, by decide, by decide, rfl⟩⟩

/-- At 3 V and 5 V in the two rows the label of the first row gives 5 V. -/
theorem getNodeV_ladder : ¬ Reports ladder.numbered ladder.countVoltageSources
    (fun r => if r = 0 then 3 else 5) "out" := by
  rintro ⟨v, hv, hall⟩
  have hfive : v = 5 := by
    have h : getNodeV ladder.numbered ladder.countVoltageSources (fun r => if r = 0 then 3 else 5)
        "out" = some (0, some 5) := by decide +kernel
    simpa using hv.symm.trans h
  have hthree : v = 3 := by
    rw [← hall 0 (⟨0, by decide⟩, 1) (by decide)]
    decide +kernel
  exact absurd (hfive.symm.trans hthree) (by decide)

end Main

end Qucs.Mna
