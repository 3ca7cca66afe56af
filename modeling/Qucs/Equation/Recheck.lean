/-
# The checker on a list it has already ordered

Every run of the equation solver starts with `checker::check` on the list that
the run before has left. The passes write into the nodes and relink them, and
`evalPossible` is never cleared, so it takes an argument that the second check
does what the first did.

* collected: dependencies are collected anew, all other fields stay
* expanded: `detectCycles` without an error: every list is what `Sees` sees
* reordered: the marked equations are in front, each after all it refers to

`Steady` names the outcome. A list the checker has accepted is steady
(`steady_of_accepted`), and on a steady list the passes change nothing but the
dependency lists (`Steady.recheck`). Both need that no equation refers to a
name of generated shape; the results may have any name.

Whether a list is steady does not depend on its constants (`Steady.alike`):
they may be overwritten between two checks.
-/
import Mathlib.Data.List.NodupEquivFin
import Qucs.Equation.DetectCycles
import Qucs.Equation.Reorder

namespace Qucs

open Lib.Greedy List Equation

variable {K : Type}

/-! ## The passes, once more -/

/-- `checker::collectDependencies` on a node that has been checked before. -/
def Equation.recollect (e : Equation K) : Equation K :=
  { e with dependencies := e.body.addDependencies [] }

/-- The passes of `checker::check` that look at names. -/
def recheck (fuel : ℕ) (es : List (Equation K)) : Option (List (Equation K) × ℕ) :=
  (detectCycles fuel (es.map Equation.recollect)).map fun r => (reorderEquations r.1, r.2)

def Equation.assignment (e : Equation K) : Assignment K := ⟨e.result, e.body⟩

variable {e : Equation K}

theorem recollect_unmarked (h : e.cycle = false) :
    unmarked e.recollect = e.assignment.collectDependencies := by
  simp [unmarked, recollect, assignment, Assignment.collectDependencies, h]

theorem map_recollect_collect (as : List (Assignment K)) :
    (collectDependencies as).map Equation.recollect = collectDependencies as := by
  simp only [collectDependencies, map_map]
  rfl

theorem map_assignment_collect (as : List (Assignment K)) :
    (collectDependencies as).map Equation.assignment = as := by
  simp only [collectDependencies, map_map]
  exact map_id as

/-! ## Marks play no part in the search for cycles -/

theorem findEquation_unmarked (es : List (Equation K)) (v : String) :
    findEquation (es.map unmarked) v = (findEquation es v).map unmarked := by
  unfold findEquation
  rw [find?_map]
  rfl

theorem recurseDependencies_unmarked (es : List (Equation K)) (result : String) (n : ℕ) :
    ∀ cycle deps, recurseDependencies (es.map unmarked) result n cycle deps =
      recurseDependencies es result n cycle deps := by
  have hdeps : childDependencies (es.map unmarked) = childDependencies es := by
    funext v
    unfold childDependencies
    rw [findEquation_unmarked]
    cases findEquation es v <;> rfl
  have hcyc : childCyclic (es.map unmarked) = childCyclic es := by
    funext v
    unfold childCyclic
    rw [findEquation_unmarked]
    cases findEquation es v <;> rfl
  induction n with
  | zero => intro cycle deps; rfl
  | succ n ih =>
    intro cycle deps
    rw [recurseDependencies, recurseDependencies]
    simp only [visitChildren_eq, hdeps, hcyc, ih]

theorem detectCyclesFrom_unmarked (n : ℕ) (todo : List (Equation K)) :
    ∀ seen, detectCyclesFrom n (seen.map unmarked) (todo.map unmarked) =
      (detectCyclesFrom n seen todo).map fun r => (r.1.map unmarked, r.2) := by
  induction todo with
  | nil => intro seen; rfl
  | cons e todo ih =>
    intro seen
    rw [map_cons, detectCyclesFrom, detectCyclesFrom, ← map_cons, ← map_append,
      recurseDependencies_unmarked]
    rw [show recurseDependencies _ (unmarked e).result n (unmarked e).cycle
      (unmarked e).dependencies =
      recurseDependencies (seen ++ e :: todo) e.result n e.cycle e.dependencies from rfl]
    cases recurseDependencies (seen ++ e :: todo) e.result n e.cycle e.dependencies with
    | none => rfl
    | some r =>
      obtain ⟨deps, cycle⟩ := r
      by_cases herr : e.result ∈ deps ∨ cycle
      · have h := ih (seen ++ [{ e with cycle := cycle }])
        rw [map_append] at h
        simp only [if_pos herr, Option.map_map]
        rw [if_pos (show (unmarked e).result ∈ deps ∨ cycle from herr)]
        refine (congrArg (Option.map _) h).trans ?_
        rw [Option.map_map]
        rfl
      · have h := ih (seen ++ [{ e with dependencies := foldDependencies deps, cycle := cycle }])
        rw [map_append] at h
        simp only [if_neg herr]
        rw [if_neg (show ¬((unmarked e).result ∈ deps ∨ cycle) from herr)]
        exact h

variable {n : ℕ}

/-- The search writes into flags and dependency lists only. -/
theorem detectCyclesFrom_keeps (todo : List (Equation K)) :
    ∀ {seen : List (Equation K)} {r : List (Equation K) × ℕ},
      detectCyclesFrom n seen todo = some r →
      r.1.map (fun e => { e.recollect with cycle := false }) =
        (seen ++ todo).map fun e => { e.recollect with cycle := false } := by
  induction todo with
  | nil =>
    intro seen r h
    cases h
    simp
  | cons e todo ih =>
    intro seen r h
    rw [detectCyclesFrom] at h
    split at h
    · cases h
    · split at h
      · obtain ⟨q, hq, rfl⟩ := Option.map_eq_some_iff.mp h
        simpa [recollect] using ih hq
      · simpa [recollect] using ih h

/-! ## A search without an error -/

variable {as : List (Assignment K)}

/-- Where nothing sees itself, the loop gets through without an error, and what
it leaves lists exactly what is seen. -/
theorem detectCyclesFrom_clean (hno : ¬SeesItself as) (n : ℕ)
    (todo : List (Equation K)) : ∀ {seen : List (Equation K)}, Standing as seen todo →
      Sound as seen → Complete as seen →
      ∃ out, detectCyclesFrom (n + 1) seen todo = some (out, 0) ∧ Sound as out ∧
        Complete as out := by
  induction todo with
  | nil =>
    intro seen _ hs hc
    exact ⟨seen, rfl, hs, hc⟩
  | cons e todo ih =>
    intro seen hst hs hc
    have hrep : ¬Reported (seen ++ e :: todo) e := fun h => hno (seesItself_of_reported hst hs h)
    have hcy : e.cycle = false := by
      obtain ⟨a, -, rfl⟩ := hst.head
      rfl
    obtain ⟨hmem, hany⟩ := not_or.mp (not_or.mp hrep).1
    have hplain := recurseDependencies_plain hmem (by simpa using hany) n
    obtain ⟨out, hout, hs', hc'⟩ := ih hst.pass (hs.pass hst) (hc.pass hst hrep)
    refine ⟨out, ?_, hs', hc'⟩
    rw [detectCyclesFrom_cons hcy (hcy ▸ hplain), hout]
    simp [hrep]

variable {es : List (Equation K)}

/-- **The search on a list without an error**, marks and all. -/
theorem detectCycles_expanded (hcy : ∀ e ∈ es, e.cycle = false)
    (hno : ¬SeesItself (es.map Equation.assignment)) (n : ℕ) :
    ∃ out, detectCycles (n + 1) (es.map Equation.recollect) = some (out, 0) ∧
      out.map Equation.recollect = es.map Equation.recollect ∧
      ∀ p e, out[p]? = some e → ∀ v, v ∈ e.dependencies ↔
        Sees (es.map Equation.assignment) p v := by
  have fresh : (es.map recollect).map unmarked =
      collectDependencies (es.map assignment) := by
    simp only [collectDependencies, map_map]
    exact map_congr_left fun e he => recollect_unmarked (hcy e he)
  obtain ⟨out₀, hout₀, hs, hc⟩ := detectCyclesFrom_clean hno n _ (standing_start _)
    (fun q e hq => absurd hq (by simp)) (fun q e hq => absurd hq (by simp))
  have hmap := detectCyclesFrom_unmarked (n + 1) (es.map recollect) []
  rw [fresh, map_nil, hout₀] at hmap
  obtain ⟨⟨out, k⟩, hout, heq⟩ := Option.map_eq_some_iff.mp hmap.symm
  obtain ⟨rfl, rfl⟩ := Prod.mk.inj heq
  have index : ∀ (p : ℕ) (e : Equation K), out[p]? = some e →
      (out.map unmarked)[p]? = some (unmarked e) := by
    intro p e he
    rw [getElem?_map, he]
    rfl
  refine ⟨out, hout, ?_, ?_⟩
  · have hunset : ∀ l : List (Equation K), (∀ e ∈ l, e.cycle = false) →
        l.map (fun e => { e.recollect with cycle := false }) = l.map recollect := by
      intro l hl
      refine map_congr_left fun e he => ?_
      rw [← hl e he]
      rfl
    have keeps := detectCyclesFrom_keeps _ hout
    rw [nil_append, map_map] at keeps
    rw [← hunset es hcy, ← hunset out fun e he => ?_]
    · exact keeps
    · obtain ⟨p, hp⟩ := mem_iff_getElem?.mp he
      exact (hc p _ (index p e hp)).1
  · intro p e he v
    exact ⟨fun hv => (hs p _ (index p e he)).1 v hv, fun hv => (hc p _ (index p e he)).2 v hv⟩

/-! ## Steady lists -/

/-- A list in the order the checker gives it: `front` is marked and can be
evaluated from left to right, `rest` waits for variables nobody defines. -/
structure Steady (front rest : List (Equation K)) : Prop where
  nodup : ((front ++ rest).map Equation.result).Nodup
  plain : ∀ e ∈ front ++ rest, ∀ v, e.body.Refers v → isGenerated v = false
  cycle : ∀ e ∈ front ++ rest, e.cycle = false
  unseen : ¬SeesItself ((front ++ rest).map Equation.assignment)
  front_marked : ∀ e ∈ front, e.evalPossible
  rest_unmarked : ∀ e ∈ rest, e.evalPossible = false
  ordered : ∀ before e after, front = before ++ e :: after →
    ∀ v, e.body.Refers v → ∃ d ∈ before, d.result = v
  waiting : ∀ e ∈ rest, ∃ v, e.body.Refers v ∧ ∀ d ∈ front, d.result ≠ v

variable {p : ℕ} {v : String}

theorem refers_of_sees (h : Sees as p v) : ∃ a ∈ as, a.body.Refers v := by
  induction h with
  | direct ha hv => exact ⟨_, mem_of_getElem? ha, hv⟩
  | earlier _ _ _ _ _ ih => exact ih
  | later _ _ _ _ hb hv => exact ⟨_, mem_of_getElem? hb, hv⟩

theorem firstIndex_le {names : List String} {w : String} {q j : ℕ}
    (h : firstIndex names w = some q) (hj : names[j]? = some w) : q ≤ j := by
  by_contra hlt
  obtain ⟨_, _, hbefore⟩ := findIdx?_eq_some_iff_getElem.mp h
  obtain ⟨hj', rfl⟩ := List.getElem?_eq_some_iff.mp hj
  exact absurd (hbefore j (by omega)) (by simp)

theorem firstIndex_of_nodup {names : List String} {w : String} {q : ℕ} (hnodup : names.Nodup)
    (h : names[q]? = some w) : firstIndex names w = some q := by
  obtain ⟨hq, rfl⟩ := List.getElem?_eq_some_iff.mp h
  refine findIdx?_eq_some_iff_getElem.mpr ⟨hq, by simp, ?_⟩
  intro j hj
  simp only [beq_iff_eq]
  intro heq
  have := (hnodup.getElem_inj_iff).mp heq
  omega

variable {front rest : List (Equation K)}

/-- An equation of an ordered front sees earlier results only. -/
theorem sees_front
    (ordered : ∀ before e after, front = before ++ e :: after → ∀ v, e.body.Refers v →
      ∃ d ∈ before, d.result = v)
    (h : Sees ((front ++ rest).map Equation.assignment) p v) (hp : p < front.length) :
    ∃ d ∈ front.take p, d.result = v := by
  have refs : ∀ {p : ℕ} {a : Assignment K}, p < front.length →
      ((front ++ rest).map assignment)[p]? = some a → ∀ v, a.body.Refers v →
      ∃ d ∈ front.take p, d.result = v := by
    intro p a hp ha v hv
    rw [getElem?_map, getElem?_append_left hp, getElem?_eq_getElem hp] at ha
    cases ha
    exact ordered _ _ (front.drop (p + 1)) (by simp) v hv
  induction h with
  | direct ha hv => exact refs hp ha _ hv
  | @earlier p q _ _ _ _ _ _ hlt _ ih =>
    obtain ⟨d, hd, hres⟩ := ih (by omega)
    exact ⟨d, (take_subset_take_left front hlt.le) hd, hres⟩
  | @later p q _ _ w _ ha hw hidx hle _ _ =>
    obtain ⟨d, hd, rfl⟩ := refs hp ha w hw
    obtain ⟨j, hj⟩ := mem_iff_getElem?.mp hd
    have hlt : j < p := by
      have := (List.getElem?_eq_some_iff.mp hj).1
      rw [length_take] at this
      omega
    rw [getElem?_take_of_lt hlt] at hj
    have hname : (((front ++ rest).map assignment).map Assignment.result)[j]? =
        some d.result := by
      rw [map_map, getElem?_map, getElem?_append_left (by omega), hj]
      rfl
    have := firstIndex_le hidx hname
    omega

/-! ## Checking a steady list -/

/-- Without generated names the test of the loop asks for all dependencies. -/
theorem evaluable_plain {root : List (Equation K)}
    (hplain : ∀ v ∈ e.dependencies, isGenerated v = false) :
    evaluable root e ↔ ∀ v ∈ e.dependencies, ∃ d ∈ root, d.result = v := by
  have hgens : definedGens root e = 0 := by
    rw [definedGens, countP_eq_zero]
    intro v hv
    simp [hplain v hv]
  rw [evaluable_iff, hgens, eq_comm, missing_eq_zero]
  constructor
  · intro h v hv
    exact h v hv (hplain v hv)
  · intro h v hv _
    exact h v hv

theorem reorderFrom_ordered (front rest : List (Equation K)) : ∀ root,
    (∀ before e after, front = before ++ e :: after → evaluable (root ++ before.map marked) e) →
    (∀ e ∈ rest, evaluable (root ++ front.map marked) e = false) →
    reorderFrom root [] (front ++ rest) = root ++ front.map marked ++ rest := by
  have stuck : ∀ (rest root before : List (Equation K)),
      (∀ e ∈ rest, evaluable root e = false) → reorderFrom root before rest =
        root ++ before ++ rest := by
    intro rest
    induction rest with
    | nil =>
      intro root before _
      rw [reorderFrom, append_nil]
    | cons e rest ih =>
      intro root before h
      rw [reorderFrom, if_neg (by simp [h e mem_cons_self]),
        ih _ _ fun d hd => h d (mem_cons_of_mem _ hd)]
      simp
  induction front with
  | nil =>
    intro root _ hrest
    rw [nil_append, stuck rest root [] (by simpa using hrest)]
    simp
  | cons e front ih =>
    intro root hfront hrest
    have hev : evaluable root e := by simpa using hfront [] e front rfl
    rw [cons_append, reorderFrom, if_pos hev, nil_append, ih]
    · simp [marked]
    · intro before d after heq
      have h := hfront (e :: before) d after (by rw [heq]; rfl)
      simpa [marked] using h
    · intro d hd
      simpa [marked] using hrest d hd

/-- **Checking a steady list again** finds no error and changes nothing but
dependency lists. -/
theorem Steady.recheck (h : Steady front rest) (n : ℕ) :
    ∃ front' rest', Qucs.recheck (n + 1) (front ++ rest) = some (front' ++ rest', 0) ∧
      front'.map Equation.recollect = front.map Equation.recollect ∧
      rest'.map Equation.recollect = rest.map Equation.recollect := by
  obtain ⟨out, hout, herase, hdeps⟩ := detectCycles_expanded h.cycle h.unseen n
  rw [map_append] at herase
  obtain ⟨f, r, rfl, hf, hr⟩ := map_eq_append_iff.mp herase
  have hlen : f.length = front.length := by simpa using congrArg length hf
  have names : f.map result = front.map result := by
    have := congrArg (map result) hf
    rwa [map_map, map_map] at this
  have plain : ∀ (p : ℕ) (e : Equation K), (f ++ r)[p]? = some e →
      ∀ v ∈ e.dependencies, isGenerated v = false := by
    intro p e he v hv
    obtain ⟨a, ha, href⟩ := refers_of_sees ((hdeps p e he v).mp hv)
    obtain ⟨d, hd, rfl⟩ := mem_map.mp ha
    exact h.plain d hd v href
  have moved : ∀ before e after, f = before ++ e :: after →
      evaluable ([] ++ before.map marked) e := by
    intro before e after heq
    have hp : before.length < front.length := by
      rw [← hlen, heq]
      simp
    have he : (f ++ r)[before.length]? = some e := by
      rw [heq]
      simp
    refine (evaluable_plain (plain _ _ he)).mpr ?_
    intro v hv
    obtain ⟨d, hd, rfl⟩ := sees_front h.ordered ((hdeps _ _ he v).mp hv) hp
    have hmem : d.result ∈ (before.map marked).map result := by
      have htake : (f.map result).take before.length = before.map result := by
        rw [heq]
        simp
      rw [map_map]
      show d.result ∈ before.map result
      rw [← htake, names, ← map_take]
      exact mem_map_of_mem hd
    obtain ⟨c, hc, hres⟩ := mem_map.mp hmem
    exact ⟨c, by simpa using hc, hres⟩
  have left : ∀ e ∈ r, evaluable ([] ++ f.map marked) e = false := by
    intro e he
    obtain ⟨q, hq⟩ := mem_iff_getElem?.mp he
    have hp : (f ++ r)[f.length + q]? = some e := by
      rw [getElem?_append_right (by omega)]
      simpa using hq
    have hrec := congrArg (fun l => l[q]?) hr
    simp only [getElem?_map, hq, Option.map_some] at hrec
    obtain ⟨d, hd, hde⟩ := Option.map_eq_some_iff.mp hrec.symm
    obtain ⟨v, hv, hmiss⟩ := h.waiting d (mem_of_getElem? hd)
    rw [Bool.eq_false_iff]
    intro hev
    have hsee : Sees ((front ++ rest).map assignment) (f.length + q) v := by
      refine .direct (a := d.assignment) ?_ hv
      rw [getElem?_map, hlen, getElem?_append_right (by omega)]
      simp [hd]
    obtain ⟨c, hc, hres⟩ := (evaluable_plain (plain _ _ hp)).mp hev v ((hdeps _ _ hp v).mpr hsee)
    have hmem : v ∈ front.map result := by
      rw [← names]
      obtain ⟨c', hc', rfl⟩ := mem_map.mp (by simpa using hc)
      exact mem_map.mpr ⟨c', hc', hres⟩
    obtain ⟨d', hd', rfl⟩ := mem_map.mp hmem
    exact hmiss d' hd' rfl
  refine ⟨f.map marked, r, ?_, ?_, hr⟩
  · unfold Qucs.recheck
    rw [hout]
    show some (reorderEquations (f ++ r), 0) = _
    rw [reorderEquations, reorderFrom_ordered f r [] moved left, nil_append]
  · have hfront : front.map (fun e => marked e.recollect) = front.map recollect := by
      refine map_congr_left fun e he => ?_
      simp [marked, recollect, h.front_marked e he]
    have hmarked := congrArg (map marked) hf
    rw [map_map, map_map] at hmarked
    rw [map_map]
    exact hmarked.trans hfront

/-! ## The first check -/

/-- What is seen from the equations left over, in the new order, was seen in
the old one: they have kept their order, and nothing in front leads to them. -/
theorem sees_rest (hes : es.map Equation.assignment = as)
    (hnodup : (as.map Assignment.result).Nodup)
    (ordered : ∀ before e after, front = before ++ e :: after → ∀ v, e.body.Refers v →
      ∃ d ∈ before, d.result = v)
    {f : ℕ ↪o ℕ} (hf : ∀ k, rest[k]? = es[f k]?)
    (h : Sees ((front ++ rest).map Equation.assignment) p v) (hp : front.length ≤ p)
    (hv : ∀ d ∈ front, d.result ≠ v) : Sees as (f (p - front.length)) v := by
  have index : ∀ {p : ℕ} {a : Assignment K}, front.length ≤ p →
      ((front ++ rest).map assignment)[p]? = some a →
      as[f (p - front.length)]? = some a := by
    intro p a hp ha
    rw [getElem?_map, getElem?_append_right hp, hf] at ha
    rw [← hes, getElem?_map, ha]
  have first : ∀ {q : ℕ} {w : String}, front.length ≤ q →
      firstIndex (((front ++ rest).map assignment).map Assignment.result) w = some q →
      firstIndex (as.map Assignment.result) w = some (f (q - front.length)) := by
    intro q w hq hidx
    obtain ⟨b, hb, rfl⟩ := firstIndex_result hidx
    refine firstIndex_of_nodup hnodup ?_
    rw [getElem?_map, index hq hb]
    rfl
  induction h with
  | direct ha href => exact .direct (index hp ha) href
  | @earlier p q a w v ha hw hidx hlt hsee ih =>
    by_cases hq : q < front.length
    · obtain ⟨d, hd, hres⟩ := sees_front ordered hsee hq
      exact absurd hres (hv d (mem_of_mem_take hd))
    · exact .earlier (index hp ha) hw (first (by omega) hidx) (f.lt_iff_lt.mpr (by omega))
        (ih (by omega) hv)
  | later ha hw hidx hle hb href =>
    exact .later (index hp ha) hw (first (by omega) hidx) (f.le_iff_le.mpr (by omega))
      (index (by omega) hb) href

/-- What the loop moves it marks, and changes nothing else. -/
theorem Reorders.origin (hrun : Reorders ([], es) (front, rest)) (he : e ∈ front ++ rest) :
    ∃ d ∈ es, e.body = d.body ∧ e.dependencies = d.dependencies ∧ e.cycle = d.cycle := by
  have hperm := Run.perm unmarked unmarked_marked hrun
  obtain ⟨d, hd, hde⟩ := mem_map.mp (hperm.mem_iff.mp (mem_map_of_mem he))
  refine ⟨d, by simpa using hd, ?_⟩
  cases e
  cases d
  cases hde
  exact ⟨rfl, rfl, rfl⟩

/-- The collected equations with their dependency lists expanded. -/
structure Expanded (as : List (Assignment K)) (es : List (Equation K)) : Prop where
  collected : es.map Equation.recollect = collectDependencies as
  lists : ∀ (p : ℕ) (e : Equation K), es[p]? = some e → ∀ v, v ∈ e.dependencies ↔ Sees as p v

/-- The search without an error leaves nothing but expanded lists. -/
theorem expanded_of_accepted (h : detectCycles n (collectDependencies as) = some (es, 0)) :
    ¬SeesItself as ∧ Expanded as es := by
  have hno : ¬SeesItself as := fun hsee => (detectCycles_reports h).mpr hsee rfl
  refine ⟨hno, ?_⟩
  obtain ⟨es', hes', herase, hdeps⟩ := detectCycles_expanded (collectDependencies_cycle as)
    (by rwa [map_assignment_collect]) n
  rw [map_recollect_collect] at hes' herase
  rw [map_assignment_collect] at hdeps
  cases (detectCyclesFrom_mono (Nat.le_succ n) h).symm.trans hes'
  exact ⟨herase, hdeps⟩

namespace Expanded

variable {as : List (Assignment K)} {es : List (Equation K)} (h : Expanded as es)

include h

theorem assignments : es.map Equation.assignment = as := by
  have := congrArg (map assignment) h.collected
  rw [map_assignment_collect, map_map] at this
  exact this

variable {e : Equation K}

theorem assignment_at {p : ℕ} (hp : es[p]? = some e) : as[p]? = some e.assignment := by
  rw [← h.assignments, getElem?_map, hp]
  rfl

theorem fresh (he : e ∈ es) : e.evalPossible = false ∧ e.cycle = false := by
  have hmem := mem_map_of_mem (f := recollect) he
  rw [h.collected] at hmem
  obtain ⟨a, -, ha⟩ := mem_map.mp hmem
  cases e
  cases ha
  exact ⟨rfl, rfl⟩

theorem refers (he : e ∈ es) {v : String} (hv : e.body.Refers v) : v ∈ e.dependencies := by
  obtain ⟨p, hp⟩ := mem_iff_getElem?.mp he
  exact (h.lists p e hp v).mpr (.direct (h.assignment_at hp) hv)

variable (hplain : ∀ a ∈ as, ∀ v, a.body.Refers v → isGenerated v = false)

include hplain

theorem plain (he : e ∈ es) : ∀ v ∈ e.dependencies, isGenerated v = false := by
  intro v hv
  obtain ⟨p, hp⟩ := mem_iff_getElem?.mp he
  obtain ⟨a, ha, href⟩ := refers_of_sees ((h.lists p e hp v).mp hv)
  exact hplain a ha v href

variable {front rest : List (Equation K)} (hrun : Reorders ([], es) (front, rest))

omit hplain

include hrun

theorem perm : ((front ++ rest).map Equation.assignment).Perm as := by
  have hperm := Run.perm assignment
    (show ∀ e, (marked e).assignment = e.assignment from fun _ => rfl) hrun
  rw [nil_append, h.assignments] at hperm
  exact hperm

variable (hnodup : (as.map Assignment.result).Nodup)

include hnodup

theorem nodup : ((front ++ rest).map Equation.result).Nodup := by
  have := ((h.perm hrun).map Assignment.result).nodup_iff.mpr hnodup
  rw [map_map] at this
  exact this

theorem moved {d e : Equation K} (hd : d ∈ front) (he : e ∈ es) (hres : e.result = d.result) :
    marked e ∈ front := by
  rcases Reorders.pending_or_moved (fun e he => (h.fresh he).1) hrun he with hpend | hmoved
  · have hdis := h.nodup hrun hnodup
    rw [map_append] at hdis
    exact (disjoint_of_nodup_append hdis (mem_map_of_mem hd) (hres ▸ mem_map_of_mem hpend)).elim
  · exact hmoved

omit hnodup

include hplain

theorem inOrder : ∀ before e after, front = before ++ e :: after →
    ∀ v ∈ e.dependencies, ∃ d ∈ before, d.result = v := by
  have hfresh : ∀ e ∈ es, e.evalPossible = false := fun e he => (h.fresh he).1
  have hsound := (reorderEquations_sound_iff hfresh).mpr (by
    intro root before e after hreach _ htest
    have he := Run.pending_subset hreach e (by simp)
    refine htest.symm.trans ?_
    rw [definedGens, countP_eq_zero]
    intro v hv
    simp [h.plain hplain he v hv])
  obtain ⟨front', hfront', hord⟩ := hsound.front_in_order
  obtain ⟨front₀, rest₀, hrun₀, hstuck₀, hreorder⟩ := reorderEquations_run es
  rw [hreorder] at hfront'
  cases markedFront_unique (Reorders.markedFront hfresh hrun₀) hfront'
  obtain ⟨tail, htail⟩ := Run.placed_stays (Run.to_stuck hrun hrun₀ hstuck₀)
  intro before e after hsplit v hv
  have hmem : e ∈ front := by simp [hsplit]
  obtain ⟨d, hd, -, hdep, -⟩ := hrun.origin (mem_append_left _ hmem)
  refine hord before e (after ++ tail) ?_ v hv (h.plain hplain hd v (hdep ▸ hv))
  simp only at htail
  rw [← htail, hsplit]
  simp

theorem ordered : ∀ before e after, front = before ++ e :: after →
    ∀ v, e.body.Refers v → ∃ d ∈ before, d.result = v := by
  intro before e after hsplit v hv
  have hmem : e ∈ front := by simp [hsplit]
  obtain ⟨d, hd, hbody, hdep, -⟩ := hrun.origin (mem_append_left _ hmem)
  exact h.inOrder hplain hrun before e after hsplit v (hdep ▸ h.refers hd (hbody ▸ hv))

include hnodup

theorem unseen (hno : ¬SeesItself as) : ¬SeesItself ((front ++ rest).map Equation.assignment) := by
  have nodup := h.nodup hrun hnodup
  have ordered := h.ordered hplain hrun
  rintro ⟨p, a, ha, hsee⟩
  rw [getElem?_map] at ha
  obtain ⟨e, he, rfl⟩ := Option.map_eq_some_iff.mp ha
  by_cases hp : p < front.length
  · obtain ⟨d, hd, hres⟩ := sees_front ordered hsee hp
    rw [getElem?_append_left hp] at he
    have hsplit : front = front.take p ++ e :: front.drop (p + 1) := by
      rw [← (List.getElem?_eq_some_iff.mp he).2]
      simp
    rw [map_append] at nodup
    have hfront := (nodup_append.mp nodup).1
    rw [hsplit, map_append, map_cons] at hfront
    exact disjoint_of_nodup_append hfront (mem_map_of_mem hd) (hres ▸ mem_cons_self)
  · obtain ⟨f, hf⟩ := sublist_iff_exists_orderEmbedding_getElem?_eq.mp
      (Run.pending_sublist hrun)
    rw [getElem?_append_right (by omega)] at he
    refine hno ⟨f (p - front.length), e.assignment, h.assignment_at ((hf _).symm.trans he), ?_⟩
    refine sees_rest h.assignments hnodup ordered hf hsee (by omega) ?_
    intro d hd hres
    rw [map_append] at nodup
    exact disjoint_of_nodup_append nodup (mem_map_of_mem hd)
      (hres ▸ mem_map_of_mem (mem_of_getElem? he))

/-- What the equation of a name in front sees is in front. -/
theorem sees_below {q : ℕ} {c : Equation K} (hq : es[q]? = some c)
    (hc : ∃ d ∈ front, d.result = c.result) {v : String} (hsee : Sees as q v) :
    ∃ d ∈ front, d.result = v := by
  obtain ⟨d, hd, hres⟩ := hc
  have hfront := h.moved hrun hnodup hd (mem_of_getElem? hq) hres.symm
  obtain ⟨before, after, hsplit⟩ := append_of_mem hfront
  obtain ⟨d', hd', hres'⟩ := h.inOrder hplain hrun before (marked c) after hsplit v
    ((h.lists q c hq v).mpr hsee)
  exact ⟨d', hsplit ▸ mem_append_left _ hd', hres'⟩

/-- An equation left over refers to a variable that is not in front: otherwise
all that it sees would be there. -/
theorem waiting (hstuck : Stuck evaluable (front, rest)) (he : e ∈ rest) :
    ∃ v, e.body.Refers v ∧ ∀ d ∈ front, d.result ≠ v := by
  by_contra hall
  simp only [not_exists, not_and, not_forall, ne_eq, not_not] at hall
  have hdefined : ∀ w, e.body.Refers w → ∃ d ∈ front, d.result = w := by
    intro w hw
    obtain ⟨d, hd, hres⟩ := hall w hw
    exact ⟨d, hd, hres⟩
  have hmem := Run.pending_subset hrun e he
  obtain ⟨p, hp⟩ := mem_iff_getElem?.mp hmem
  have child : ∀ {a : Assignment K} {q : ℕ} {w : String}, as[p]? = some a → a.body.Refers w →
      firstIndex (as.map Assignment.result) w = some q →
      ∃ c, es[q]? = some c ∧ ∃ d ∈ front, d.result = c.result := by
    intro a q w ha hw hidx
    cases (h.assignment_at hp).symm.trans ha
    obtain ⟨b, hb, rfl⟩ := firstIndex_result hidx
    rw [← h.assignments, getElem?_map] at hb
    obtain ⟨c, hc, rfl⟩ := Option.map_eq_some_iff.mp hb
    exact ⟨c, hc, hdefined _ hw⟩
  have hev : evaluable front e := by
    refine (evaluable_plain (h.plain hplain hmem)).mpr ?_
    intro v hv
    cases (h.lists p e hp v).mp hv with
    | direct ha href =>
      cases (h.assignment_at hp).symm.trans ha
      exact hdefined v href
    | earlier ha hw hidx _ hsee =>
      obtain ⟨c, hc, hfront⟩ := child ha hw hidx
      exact h.sees_below hplain hrun hnodup hc hfront hsee
    | later ha hw hidx _ hb href =>
      obtain ⟨c, hc, hfront⟩ := child ha hw hidx
      exact h.sees_below hplain hrun hnodup hc hfront (.direct hb href)
  exact absurd (hev.symm.trans (hstuck e he)) (by simp)

end Expanded

/-- **A list the checker has accepted is steady.** -/
theorem steady_of_accepted (hnodup : (as.map Assignment.result).Nodup)
    (hplain : ∀ a ∈ as, ∀ v, a.body.Refers v → isGenerated v = false)
    (hrun : recheck n (collectDependencies as) = some (es, 0)) :
    ∃ front rest, es = front ++ rest ∧ Steady front rest ∧
      (es.map Equation.assignment).Perm as := by
  obtain ⟨⟨out, err⟩, hout, heq⟩ := Option.map_eq_some_iff.mp hrun
  obtain ⟨rfl, rfl⟩ := Prod.mk.inj heq
  rw [map_recollect_collect] at hout
  obtain ⟨hno, h⟩ := expanded_of_accepted hout
  obtain ⟨front, rest, hreach, hstuck, hreorder⟩ := reorderEquations_run out
  refine ⟨front, rest, hreorder, ?_, hreorder ▸ h.perm hreach⟩
  constructor
  · exact h.nodup hreach hnodup
  · intro e he v hv
    obtain ⟨d, hd, hbody, -⟩ := hreach.origin he
    exact h.plain hplain hd v (h.refers hd (hbody ▸ hv))
  · intro e he
    obtain ⟨d, hd, -, -, hcycle⟩ := hreach.origin he
    exact hcycle.trans (h.fresh hd).2
  · exact h.unseen hplain hreach hnodup hno
  · exact hreach.front_marked
  · intro e he
    exact (h.fresh (Run.pending_subset hreach e he)).1
  · exact h.ordered hplain hreach
  · intro e he
    exact h.waiting hplain hreach hnodup hstuck he

/-! ## Constants do not matter -/

/-- Equations that differ in their constants at most. -/
structure Alike (e d : Equation K) : Prop where
  result : e.result = d.result
  mark : e.evalPossible = d.evalPossible
  cycle : e.cycle = d.cycle
  refers : ∀ v, e.body.Refers v ↔ d.body.Refers v

variable {d : Equation K} {ds : List (Equation K)}

theorem Alike.of_recollect (h : e.recollect = d.recollect) : Alike e d := by
  cases e
  cases d
  cases h
  exact ⟨rfl, rfl, rfl, fun _ => Iff.rfl⟩

section

variable (h : List.Forall₂ Alike es ds)
include h

theorem results_alike : es.map Equation.result = ds.map Equation.result := by
  induction h with
  | nil => rfl
  | cons hed _ ih => rw [map_cons, map_cons, hed.result, ih]

theorem alike_mem (hd : d ∈ ds) : ∃ e ∈ es, Alike e d := by
  induction h with
  | nil => cases hd
  | cons hed _ ih =>
    rcases mem_cons.mp hd with rfl | hd
    · exact ⟨_, mem_cons_self, hed⟩
    · obtain ⟨e, he, hed'⟩ := ih hd
      exact ⟨e, mem_cons_of_mem _ he, hed'⟩

theorem alike_at {a : Assignment K} (ha : (ds.map Equation.assignment)[p]? = some a) :
    ∃ b, (es.map Equation.assignment)[p]? = some b ∧ b.result = a.result ∧
      ∀ v, a.body.Refers v → b.body.Refers v := by
  induction h generalizing p with
  | nil => simp at ha
  | @cons e d es ds hed _ ih =>
    cases p with
    | zero =>
      cases ha
      exact ⟨e.assignment, rfl, hed.result, fun v hv => (hed.refers v).mpr hv⟩
    | succ p => simpa using ih (by simpa using ha)

theorem sees_alike (hsee : Sees (ds.map Equation.assignment) p v) :
    Sees (es.map Equation.assignment) p v := by
  have names : (ds.map assignment).map Assignment.result =
      (es.map assignment).map Assignment.result := by
    rw [map_map, map_map]
    exact (results_alike h).symm
  induction hsee with
  | direct ha hv =>
    obtain ⟨b, hb, -, hrefs⟩ := alike_at h ha
    exact .direct hb (hrefs _ hv)
  | earlier ha hw hidx hlt _ ih =>
    obtain ⟨b, hb, -, hrefs⟩ := alike_at h ha
    exact .earlier hb (hrefs _ hw) (names ▸ hidx) hlt ih
  | later ha hw hidx hle hc hv =>
    obtain ⟨b, hb, -, hrefs⟩ := alike_at h ha
    obtain ⟨c, hc', -, hrefs'⟩ := alike_at h hc
    exact .later hb (hrefs _ hw) (names ▸ hidx) hle hc' (hrefs' _ hv)

end

/-- **Whether a list is steady does not depend on its constants.** -/
theorem Steady.alike {front rest front' rest' : List (Equation K)} (h : Steady front rest)
    (hfront : List.Forall₂ Alike front front') (hrest : List.Forall₂ Alike rest rest') :
    Steady front' rest' := by
  have hall := rel_append hfront hrest
  constructor
  · rw [← results_alike hall]
    exact h.nodup
  · intro d hd v hv
    obtain ⟨e, he, hed⟩ := alike_mem hall hd
    exact h.plain e he v ((hed.refers v).mpr hv)
  · intro d hd
    obtain ⟨e, he, hed⟩ := alike_mem hall hd
    exact hed.cycle.symm.trans (h.cycle e he)
  · rintro ⟨p, a, ha, hsee⟩
    obtain ⟨b, hb, hres, -⟩ := alike_at hall ha
    exact h.unseen ⟨p, b, hb, hres ▸ sees_alike hall hsee⟩
  · intro d hd
    obtain ⟨e, he, hed⟩ := alike_mem hfront hd
    exact hed.mark.symm.trans (h.front_marked e he)
  · intro d hd
    obtain ⟨e, he, hed⟩ := alike_mem hrest hd
    exact hed.mark.symm.trans (h.rest_unmarked e he)
  · intro before d after hsplit v hv
    rw [hsplit] at hfront
    have hbefore := forall₂_take_append _ _ _ hfront
    have htail := forall₂_drop_append _ _ _ hfront
    cases hdrop : front.drop before.length with
    | nil =>
      rw [hdrop] at htail
      cases htail
    | cons e tail =>
      rw [hdrop] at htail
      cases htail with
      | cons hed _ =>
        obtain ⟨c, hc, hres⟩ := h.ordered (front.take before.length) e tail
          (by rw [← hdrop, take_append_drop]) v ((hed.refers v).mpr hv)
        have hname : v ∈ before.map result := by
          rw [← results_alike hbefore]
          exact mem_map.mpr ⟨c, hc, hres⟩
        exact mem_map.mp hname
  · intro d hd
    obtain ⟨e, he, hed⟩ := alike_mem hrest hd
    obtain ⟨v, hv, hmiss⟩ := h.waiting e he
    refine ⟨v, (hed.refers v).mp hv, ?_⟩
    intro c hc hres
    obtain ⟨c', hc', hcc⟩ := alike_mem hfront hc
    exact hmiss c' hc' (hcc.result.trans hres)

end Qucs
