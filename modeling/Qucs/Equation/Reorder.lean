/-
# The evaluation order

`checker::reorderEquations` is a greedy scheduler (`Lib.Greedy`): it moves the
first equation that passes its test to the new list, marks it and starts
over. The test compares two counters, and a name of generated shape that is
also the result of a moved equation enters both. So the test does not ask
whether all ordinary dependencies are there; it asks whether

    definedGens = missing

where `definedGens` counts the dependencies of generated shape that are
results of moved equations, and `missing` the ordinary dependencies that are
not (`evaluable_iff`).

**Soundness** (`reorderEquations_sound_iff`). The marked equations form a
prefix in which every ordinary dependency is defined earlier iff no equation
is ever moved with `definedGens = missing > 0`.

**Completeness** (`reorderEquations_complete_iff`). Without duplicate
results, every equation with settled dependencies is marked iff none of them
is ever left with `missing = 0 < definedGens`; it then stays behind for good.

Both conditions hold when no result has generated shape
(`Reorders.definedGens_eq_zero`).
-/
import Qucs.Lib.Greedy
import Qucs.Lib.Walk
import Qucs.Equation.Checker

namespace Qucs

open Relation Lib.Greedy Lib.Walk List Equation Run

variable {K : Type}

/-! ## The loop as a scheduler -/

def marked (e : Equation K) : Equation K := { e with evalPossible := true }

def unmarked (e : Equation K) : Equation K := { e with evalPossible := false }

theorem unmarked_marked (e : Equation K) : unmarked (marked e) = unmarked e := rfl

theorem result_marked (e : Equation K) : (marked e).result = e.result := rfl

variable {e : Equation K}

theorem unmarked_of_fresh (h : e.evalPossible = false) : unmarked e = e := by rw [unmarked, ← h]

/-- The states of the loop at which it (re)starts. -/
abbrev Reorders : List (Equation K) × List (Equation K) →
    List (Equation K) × List (Equation K) → Prop :=
  Run evaluable marked

/-- The loop is a run of the scheduler to a stuck state, whose two lists it
joins. -/
theorem reorderFrom_run (root before after : List (Equation K))
    (hb : ∀ b ∈ before, evaluable root b = false) :
    ∃ front rest, Reorders (root, before ++ after) (front, rest) ∧
      Stuck evaluable (front, rest) ∧ reorderFrom root before after = front ++ rest := by
  induction root, before, after using reorderFrom.induct with
  | case1 root before =>
    refine ⟨root, before, ?_, hb, by rw [reorderFrom]⟩
    rw [append_nil]
  | case2 root before eqn after hev ih =>
    obtain ⟨front, rest, hrun, hstuck, heq⟩ := ih (by simp)
    refine ⟨front, rest, .head (.move hb hev) ?_, hstuck, ?_⟩
    · rw [nil_append] at hrun
      exact hrun
    · rw [reorderFrom, if_pos hev, heq]
  | case3 root before eqn after hev ih =>
    have hb' : ∀ b ∈ before ++ [eqn], evaluable root b = false := by
      intro b hmem
      rcases mem_append.mp hmem with h | h
      · exact hb b h
      · rw [mem_singleton.mp h]
        simpa using hev
    obtain ⟨front, rest, hrun, hstuck, heq⟩ := ih hb'
    refine ⟨front, rest, ?_, hstuck, ?_⟩
    · simpa using hrun
    · rw [reorderFrom, if_neg hev, heq]

theorem reorderEquations_run (es : List (Equation K)) :
    ∃ front rest, Reorders ([], es) (front, rest) ∧ Stuck evaluable (front, rest) ∧
      reorderEquations es = front ++ rest :=
  reorderFrom_run [] [] es (by simp)

variable {es : List (Equation K)} {s : List (Equation K) × List (Equation K)}

theorem Reorders.front_marked (h : Reorders ([], es) s) : ∀ e ∈ s.1, e.evalPossible := by
  refine invariant (P := fun s => ∀ e ∈ s.1, e.evalPossible) ?_ h (by simp)
  intro s t hround hs e he
  cases hround with
  | move _ _ =>
    rcases mem_append.mp he with he | he
    · exact hs e he
    · rw [mem_singleton.mp he]
      rfl

/-! ## What the test asks -/

/-- The dependencies of generated shape that are results of moved equations. -/
def definedGens (root : List (Equation K)) (e : Equation K) : Nat :=
  e.dependencies.countP fun var => isGenerated var && (findEquation root var).isSome

/-- The ordinary dependencies that are not results of moved equations. -/
def missing (root : List (Equation K)) (e : Equation K) : Nat :=
  e.dependencies.countP fun var => !isGenerated var && !(findEquation root var).isSome

/-- **The test of the loop.** -/
theorem evaluable_iff {root : List (Equation K)} :
    evaluable root e ↔ definedGens root e = missing root e := by
  have hcount : ∀ deps : List String,
      deps.countP (fun var => (findEquation root var).isSome)
          + deps.countP (fun var => !isGenerated var && !(findEquation root var).isSome)
          + deps.countP isGenerated
        = deps.countP (fun var => isGenerated var && (findEquation root var).isSome)
          + deps.length := by
    intro deps
    induction deps with
    | nil => rfl
    | cons v deps ih =>
      simp only [countP_cons, length_cons]
      cases isGenerated v <;> cases (findEquation root v).isSome <;>
        simp only [Bool.not_true, Bool.not_false, Bool.and_true, Bool.and_false,
          Bool.false_eq_true, if_true, if_false] <;> omega
  have hle : e.dependencies.countP isGenerated ≤ e.dependencies.length := countP_le_length
  have h := hcount e.dependencies
  simp only [evaluable, beq_iff_eq, definedGens, missing]
  omega

theorem missing_eq_zero {root : List (Equation K)} : missing root e = 0 ↔
      ∀ v ∈ e.dependencies, isGenerated v = false → ∃ d ∈ root, d.result = v := by
  rw [missing, countP_eq_zero]
  constructor
  · intro h v hv hgen
    have hv' := h v hv
    simp only [hgen, Bool.not_false, Bool.true_and, Bool.not_eq_true', Bool.not_eq_false] at hv'
    exact findEquation_isSome.mp hv'
  · intro h v hv
    cases hgen : isGenerated v with
    | true => simp
    | false => simp [findEquation_isSome.mpr (h v hv hgen)]

section Grow

variable {root root' : List (Equation K)} (hroot : root <+: root')

include hroot

theorem findEquation_grow {v : String} (h : (findEquation root v).isSome) :
    (findEquation root' v).isSome := by
  obtain ⟨d, hd, rfl⟩ := findEquation_isSome.mp h
  exact findEquation_isSome.mpr ⟨d, hroot.subset hd, rfl⟩

theorem definedGens_grow (e : Equation K) : definedGens root e ≤ definedGens root' e := by
  apply countP_mono_left
  intro v _ hv
  obtain ⟨hgen, hsome⟩ := Bool.and_eq_true_iff.mp hv
  exact Bool.and_eq_true_iff.mpr ⟨hgen, findEquation_grow hroot hsome⟩

theorem missing_grow {e : Equation K} (h : missing root e = 0) : missing root' e = 0 := by
  rw [missing_eq_zero] at h ⊢
  intro v hv hgen
  obtain ⟨d, hd, hres⟩ := h v hv hgen
  exact ⟨d, hroot.subset hd, hres⟩

end Grow

/-! ## Soundness of the order -/

/-- Every ordinary dependency of an equation is the result of an earlier one. -/
def InOrder (front : List (Equation K)) : Prop :=
  ∀ before e after, front = before ++ e :: after →
    ∀ v ∈ e.dependencies, isGenerated v = false → ∃ d ∈ before, d.result = v

/-- The marked equations of the list are its prefix `front`. -/
def MarkedFront (out front : List (Equation K)) : Prop :=
  ∃ rest, out = front ++ rest ∧ (∀ e ∈ front, e.evalPossible) ∧ ∀ e ∈ rest, e.evalPossible = false

/-- A sound evaluation order for `es`: a rearrangement whose marked equations
form a prefix that can be evaluated from left to right. -/
structure OrderSound (es out : List (Equation K)) : Prop where
  perm : (out.map unmarked).Perm (es.map unmarked)
  front_in_order : ∃ front, MarkedFront out front ∧ InOrder front

theorem markedFront_eq_takeWhile {out front : List (Equation K)} (h : MarkedFront out front) :
    front = out.takeWhile Equation.evalPossible := by
  obtain ⟨rest, rfl, hfront, hrest⟩ := h
  rw [takeWhile_append_of_pos hfront]
  cases rest with
  | nil => simp
  | cons e rest =>
    rw [takeWhile_cons_of_neg (by simp [hrest e mem_cons_self]), append_nil]

theorem markedFront_unique {out front front' : List (Equation K)} (h : MarkedFront out front)
    (h' : MarkedFront out front') : front = front' :=
  (markedFront_eq_takeWhile h).trans (markedFront_eq_takeWhile h').symm

variable {front : List (Equation K)}

theorem inOrder_snoc : InOrder (front ++ [marked e]) ↔ InOrder front ∧ missing front e = 0 := by
  rw [missing_eq_zero]
  constructor
  · intro h
    refine ⟨?_, h front (marked e) [] rfl⟩
    intro before d after heq
    exact h before d (after ++ [marked e]) (by rw [heq]; simp)
  · rintro ⟨hfront, he⟩ before d after heq
    rcases eq_nil_or_concat after with rfl | ⟨after, x, rfl⟩
    · obtain ⟨rfl, hlast⟩ := append_inj' heq rfl
      obtain rfl := head_eq_of_cons_eq hlast
      exact he
    · have heq' : front ++ [marked e] = (before ++ d :: after) ++ [x] := by
        rw [heq]
        simp
      obtain ⟨rfl, -⟩ := append_inj' heq' rfl
      exact hfront before d after rfl

section Order

variable {es : List (Equation K)} (hfresh : ∀ e ∈ es, e.evalPossible = false)

include hfresh

/-- The marked prefix of the result is the list of moved equations. -/
theorem Reorders.markedFront {front rest : List (Equation K)}
    (hrun : Reorders ([], es) (front, rest)) : MarkedFront (front ++ rest) front :=
  ⟨rest, rfl, hrun.front_marked, fun e he => hfresh e (pending_subset hrun e he)⟩

/-- **When the evaluation order is sound.**  No mark is set before the call.
Then the result is a sound order iff no equation is moved while as many of
its ordinary dependencies are missing as names of generated shape are
defined, unless that number is zero. -/
theorem reorderEquations_sound_iff :
    OrderSound es (reorderEquations es) ↔
      ∀ root before e after, Reorders ([], es) (root, before ++ e :: after) →
        (∀ b ∈ before, evaluable root b = false) →
        definedGens root e = missing root e → missing root e = 0 := by
  obtain ⟨front, rest, hrun, hstuck, heq⟩ := reorderEquations_run es
  have hfront := Reorders.markedFront hfresh hrun
  rw [heq]
  constructor
  · rintro ⟨-, front', hfront', hord⟩ root before e after hreach hb htest
    obtain rfl := markedFront_unique hfront hfront'
    have hmove := hreach.tail (.move hb (evaluable_iff.mpr htest))
    obtain ⟨tail, htail⟩ := placed_stays (to_stuck hmove hrun hstuck)
    refine (missing_eq_zero).mpr fun v hv hgen => ?_
    exact hord root (marked e) tail (by simpa using htail.symm) v hv hgen
  · intro hcond
    refine ⟨by simpa using perm unmarked unmarked_marked hrun, front, hfront, ?_⟩
    clear hfront heq hstuck
    generalize hs : (front, rest) = s at hrun
    have hall : InOrder s.1 := by
      induction hrun generalizing front rest with
      | refl => exact fun before e after h => absurd h (by simp)
      | tail hreach hround ih =>
        cases hround with
        | move hb hev =>
          exact inOrder_snoc.mpr ⟨ih _ _ rfl, hcond _ _ _ _ hreach hb (evaluable_iff.mp hev)⟩
    rw [← hs] at hall
    exact hall

end Order

theorem Reorders.result_mem
    (h : Reorders ([], es) s) : ∀ d ∈ s.1, ∃ e ∈ es, e.result = d.result := by
  intro d hd
  have hperm := perm result result_marked h
  have hmem : d.result ∈ (s.1 ++ s.2).map result := mem_map_of_mem (mem_append_left _ hd)
  exact mem_map.mp (by simpa using hperm.mem_iff.mp hmem)

/-- No result of generated shape, no double count. -/
theorem Reorders.definedGens_eq_zero (h : Reorders ([], es) s)
    (hplain : ∀ e ∈ es, isGenerated e.result = false) (e : Equation K) : definedGens s.1 e = 0 := by
  rw [definedGens, countP_eq_zero]
  intro v _ hv
  obtain ⟨hgen, hsome⟩ := Bool.and_eq_true_iff.mp hv
  obtain ⟨d, hd, rfl⟩ := findEquation_isSome.mp hsome
  obtain ⟨x, hx, hres⟩ := h.result_mem d hd
  rw [← hres, hplain x hx] at hgen
  exact absurd hgen (by simp)

/-- `b = a`, `a = 1`. -/
def ordinaryPair : List (Assignment Unit) := [⟨"b", .reference "a"⟩, ⟨"a", .constant ()⟩]

theorem reorderEquations_sound_ordinaryPair :
    OrderSound (collectDependencies ordinaryPair)
      (reorderEquations (collectDependencies ordinaryPair)) := by
  refine (reorderEquations_sound_iff (by decide)).mpr ?_
  intro root before e after hreach _ htest
  rw [← htest]
  exact hreach.definedGens_eq_zero (by decide) e

/-- `x.0001 = 1`, `y = x.0001 + z`, and `z` is defined nowhere. -/
def generatedAndMissing : List (Assignment Unit) :=
  [⟨"x.0001", .constant ()⟩, ⟨"y", .application "+" [.reference "x.0001", .reference "z"]⟩]

/-- The equation for `y` is marked although `z` is missing: the one defined
name of generated shape stands in for it. -/
theorem reorderEquations_generatedAndMissing :
    ¬ OrderSound (collectDependencies generatedAndMissing)
      (reorderEquations (collectDependencies generatedAndMissing)) := by
  have hout : reorderEquations (collectDependencies generatedAndMissing)
      = (collectDependencies generatedAndMissing).map marked := by
    show reorderFrom [] [] [_, _] = _
    rw [reorderFrom, if_pos (by decide)]
    show reorderFrom [_] [] [_] = _
    rw [reorderFrom, if_pos (by decide)]
    show reorderFrom [_, _] [] [] = _
    rw [reorderFrom]
    rfl
  rintro ⟨-, front, hfront, hord⟩
  have hall : MarkedFront (reorderEquations (collectDependencies generatedAndMissing))
      (reorderEquations (collectDependencies generatedAndMissing)) := by
    refine ⟨[], by simp, ?_, by simp⟩
    rw [hout]
    decide
  obtain rfl := markedFront_unique hfront hall
  rw [hout] at hord
  have hz := hord [_] _ [] rfl "z" (by decide) (by decide)
  exact absurd hz (by decide)

/-! ## Completeness of the order -/

/-- `v → w`: an equation resulting in `v` lists the variable `w`. -/
def Lists (es : List (Equation K)) (v w : String) : Prop :=
  ∃ d ∈ es, d.result = v ∧ w ∈ d.dependencies

/-- All transitive dependencies of `e` are defined or generated, and none of
them is on a cycle. -/
def Settled (es : List (Equation K)) (e : Equation K) : Prop :=
  ∀ v ∈ e.dependencies, ∀ w, ReflTransGen (Lists es) v w →
    ((∃ d ∈ es, d.result = w) ∨ isGenerated w) ∧ ¬ TransGen (Lists es) w w

/-- Every settled equation is marked and in the marked prefix. -/
def OrderComplete (es out : List (Equation K)) : Prop :=
  ∀ e ∈ es, Settled es e → ∃ front, MarkedFront out front ∧ marked e ∈ front

theorem Settled.child {e d : Equation K} (h : Settled es e) (hd : d ∈ es)
    (hv : d.result ∈ e.dependencies) : Settled es d := by
  intro v hvd w hw
  exact h d.result hv w (.head ⟨d, hd, rfl, hvd⟩ hw)

/-- The variables the equations resulting in `v` list. -/
def listed (es : List (Equation K)) (v : String) : List String :=
  (es.filter fun d => d.result == v).flatMap Equation.dependencies

theorem mem_listed {v w : String} : w ∈ listed es v ↔ Lists es v w := by
  simp only [listed, Lists, mem_flatMap, mem_filter, beq_iff_eq, and_assoc]

theorem succ_listed (es : List (Equation K)) : Succ (listed es) = Lists es := by
  funext v w
  exact propext mem_listed

/-- From a settled equation the dependencies run dry after some levels. -/
theorem Settled.frontier_nil (h : Settled es e) :
    ∃ n, frontier (listed es) n e.dependencies = [] := by
  refine (exists_frontier_nil (L := es.map result) ?_).mpr ?_
  · intro v w hw
    obtain ⟨d, hd, rfl, -⟩ := mem_listed.mp hw
    exact mem_map_of_mem hd
  · rw [succ_listed]
    rintro ⟨v, hv, x, hvx, hx⟩
    exact (h v hv x hvx).2 hx

theorem frontier_subset {α : Type} {next : α → List α} {n : Nat} {F F' : List α}
    (hsub : ∀ x ∈ F, x ∈ F') (h : frontier next n F' = []) : frontier next n F = [] := by
  apply eq_nil_iff_forall_not_mem.mpr
  intro y hy
  obtain ⟨v, hv, hsteps⟩ := mem_frontier.mp hy
  have hmem := mem_frontier.mpr ⟨v, hsub v hv, hsteps⟩
  rw [h] at hmem
  exact not_mem_nil hmem

section Complete

variable {es : List (Equation K)} (hfresh : ∀ e ∈ es, e.evalPossible = false)

include hfresh

theorem Reorders.pending_or_moved {s : List (Equation K) × List (Equation K)}
    (hrun : Reorders ([], es) s) {e : Equation K} (he : e ∈ es) : e ∈ s.2 ∨ marked e ∈ s.1 := by
  have hperm := perm unmarked unmarked_marked hrun
  have hmem := hperm.mem_iff.mpr (mem_map_of_mem (by simpa using he))
  obtain ⟨x, hx, hxe⟩ := mem_map.mp hmem
  rw [unmarked_of_fresh (hfresh e he)] at hxe
  rcases mem_append.mp hx with hx | hx
  · right
    have hmark := hrun.front_marked x hx
    have : x = marked e := by rw [← hxe, marked, unmarked, ← hmark]
    exact this ▸ hx
  · left
    rw [unmarked_of_fresh (hfresh x (pending_subset hrun x hx))] at hxe
    exact hxe ▸ hx

/-- In a stuck state no settled equation is pending, unless one is blocked. -/
theorem Reorders.settled_moved {front rest : List (Equation K)}
    (hrun : Reorders ([], es) (front, rest)) (hstuck : Stuck evaluable (front, rest))
    (hclear : ∀ e ∈ rest, Settled es e → missing front e = 0 → definedGens front e = 0) :
    ∀ (n : Nat) (e : Equation K), e ∈ es → Settled es e →
      frontier (listed es) n e.dependencies = [] → e ∉ rest := by
  intro n
  induction n with
  | zero =>
    intro e _ _ hnil hrest
    have hnil' : e.dependencies = [] := hnil
    have hev : evaluable front e := by
      rw [evaluable_iff, definedGens, missing, hnil']
      rfl
    exact absurd (hev.symm.trans (hstuck e hrest)) (by simp)
  | succ n ih =>
    intro e _ hset hnil hrest
    have hmiss : missing front e = 0 := by
      refine missing_eq_zero.mpr fun v hv hgen => ?_
      rcases (hset v hv v .refl).1 with ⟨d, hd, rfl⟩ | hg
      · have hlevel : frontier (listed es) n d.dependencies = [] := by
          refine frontier_subset ?_ hnil
          intro w hw
          exact mem_flatMap.mpr ⟨d.result, hv, mem_listed.mpr ⟨d, hd, rfl, hw⟩⟩
        have hd' := ih d hd (hset.child hd hv) hlevel
        rcases Reorders.pending_or_moved hfresh hrun hd with h | h
        · exact absurd h hd'
        · exact ⟨marked d, h, rfl⟩
      · exact absurd (hgen.symm.trans hg) (by simp)
    have hev := evaluable_iff.mpr ((hclear e hrest hset hmiss).trans hmiss.symm)
    exact absurd (hev.symm.trans (hstuck e hrest)) (by simp)

/-- **When the evaluation order is complete.**  No mark is set before the
call and no two equations have the same result. Then every settled equation
is marked iff the loop never has one pending whose ordinary dependencies are
all there while a name of generated shape among them is defined, too. -/
theorem reorderEquations_complete_iff (hnodup : (es.map Equation.result).Nodup) :
    OrderComplete es (reorderEquations es) ↔
      ∀ root rest, Reorders ([], es) (root, rest) → ∀ e ∈ rest, Settled es e →
        missing root e = 0 → definedGens root e = 0 := by
  obtain ⟨front, pending, hrun, hstuck, heq⟩ := reorderEquations_run es
  have hfront := Reorders.markedFront hfresh hrun
  rw [heq]
  constructor
  · intro hcomp root rest hreach e he hset hmiss
    by_contra hgens
    have hes : e ∈ es := pending_subset hreach e he
    have hend := to_stuck hreach hrun hstuck
    obtain ⟨front', hfront', hmem⟩ := hcomp e hes hset
    obtain rfl := markedFront_unique hfront hfront'
    have hgone : e ∉ pending := by
      intro hp
      have hperm := perm result result_marked hrun
      have hnd : ((front ++ pending).map result).Nodup := by
        refine hperm.nodup_iff.mpr ?_
        simpa using hnodup
      rw [map_append] at hnd
      have hres : (marked e).result ∈ pending.map result := mem_map.mpr ⟨e, hp, rfl⟩
      exact disjoint_of_nodup_append hnd (mem_map_of_mem hmem) hres
    obtain ⟨placed, before, after, hlater, -, hev⟩ := moved hend he hgone
    have hgrow := placed_stays hlater
    have h1 := definedGens_grow hgrow e
    have h2 := missing_grow hgrow hmiss
    have h3 := evaluable_iff.mp hev
    simp only at h1 h2
    omega
  · intro hclear e he hset
    refine ⟨front, hfront, ?_⟩
    obtain ⟨n, hn⟩ := hset.frontier_nil
    have hno := Reorders.settled_moved hfresh hrun hstuck (hclear front pending hrun) n e he hset hn
    exact (Reorders.pending_or_moved hfresh hrun he).resolve_left hno

end Complete

theorem reorderEquations_complete_ordinaryPair :
    OrderComplete (collectDependencies ordinaryPair)
      (reorderEquations (collectDependencies ordinaryPair)) := by
  refine (reorderEquations_complete_iff (by decide) (by decide)).mpr ?_
  intro root rest hreach e _ _ _
  exact hreach.definedGens_eq_zero (by decide) e

/-- `a.0001 = 1`, `y = a.0001`. -/
def generatedAndDefined : List (Assignment Unit) :=
  [⟨"a.0001", .constant ()⟩, ⟨"y", .reference "a.0001"⟩]

/-- The equation for `y` is not marked although its one dependency is defined
before it. -/
theorem reorderEquations_generatedAndDefined :
    ¬ OrderComplete (collectDependencies generatedAndDefined)
      (reorderEquations (collectDependencies generatedAndDefined)) := by
  have hout : reorderEquations (collectDependencies generatedAndDefined)
      = [marked ⟨"a.0001", .constant (), [], false, false⟩,
         ⟨"y", .reference "a.0001", ["a.0001"], false, false⟩] := by
    show reorderFrom [] [] [_, _] = _
    rw [reorderFrom, if_pos (by decide)]
    show reorderFrom [_] [] [_] = _
    rw [reorderFrom, if_neg (by decide)]
    rw [reorderFrom]
    rfl
  have hfront : MarkedFront (reorderEquations (collectDependencies generatedAndDefined))
      [marked ⟨"a.0001", .constant (), [], false, false⟩] := by
    rw [hout]
    exact ⟨[_], rfl, by decide, by decide⟩
  intro hcomp
  have hsettled : Settled (collectDependencies generatedAndDefined)
      ⟨"y", .reference "a.0001", ["a.0001"], false, false⟩ := by
    have hleaf : ∀ d ∈ collectDependencies generatedAndDefined, d.result = "a.0001" →
        d.dependencies = [] := by decide
    have hno : ∀ w, ¬ Lists (collectDependencies generatedAndDefined) "a.0001" w := by
      rintro w ⟨d, hd, hres, hw⟩
      rw [hleaf d hd hres] at hw
      exact not_mem_nil hw
    intro v hv w hw
    obtain rfl := mem_singleton.mp hv
    rcases ReflTransGen.cases_head hw with rfl | ⟨u, hu, -⟩
    · refine ⟨Or.inr (by decide), ?_⟩
      intro hcyc
      rcases TransGen.head'_iff.mp hcyc with ⟨u, hu, -⟩
      exact hno u hu
    · exact absurd hu (hno u)
  obtain ⟨front, hfront', hmem⟩ := hcomp _ (mem_cons_of_mem _ mem_cons_self) hsettled
  obtain rfl := markedFront_unique hfront hfront'
  have hname := congrArg result (mem_singleton.mp hmem)
  exact absurd hname (by decide)

end Qucs
