/-
# Instances of one type do not interfere

Instances of one type are solved one after the other in the same equations, so
whatever one of them leaves there is what the next one starts from. It leaves

* the values of its parameters: overwritten: every instance passes all of them
* the order of the equations: the same for every instance (`Steady`)
* results: evaluated again, before anything reads them
* what functions remember: nothing overwrites that

The specification is `aloneTree`: every instance has a checker for itself, with
no results, and the values that its properties give or its type has as defaults
(`Template.own`). `runSolver_isolated` is by induction along the tree. Between
two instances the shared checkers hold the equations of their types up to the
values of the parameters (`Fits`); the checker of the environment above is not
touched meanwhile, because no type lies below itself.

The last of these is an exception. `srandom` answers 1 to the first
call of the process only, so that equations with functions that have a memory
are excluded (`Design.Quiet`), and `runSolver_srandom` shows why.
-/
import Mathlib
import Qucs.Environment.Evaluation

namespace Qucs

open Environments List Equation Checkee Shared

variable {D σ τ : Type}

namespace Environments

/-! ## Passing parameters -/

def Checkee.assign (c : Checkee D) (own : String → Option D) : Checkee D :=
  { c with equations := c.equations.map (Environments.assign own) }

theorem Checkee.assign_none (c : Checkee D) : c.assign (fun _ => none) = c := by
  unfold assign
  rw [show Environments.assign (fun _ => (none : Option D)) = id from rfl, map_id]

theorem Checkee.assign_assign (c : Checkee D) (own own' : String → Option D) :
    (c.assign own).assign own' = c.assign fun n => (own' n).or (own n) := by
  unfold assign
  rw [map_map]
  congr 1
  exact map_congr_left fun e _ => Environments.assign_assign own own' e

theorem Checkee.setDouble_eq (c : Checkee D) (ident : String) (val : D) :
    c.setDouble ident val = c.assign fun n => if n = ident then some val else none := by
  unfold setDouble assign
  congr 1
  exact map_congr_left fun e _ => setDoubleAt_eq ident val e

/-- The number a variable passes to the solver by itself. -/
def constantOf (v : Variable D) : Option D :=
  match v.pass, v.content with
  | true, .constant (.double d) => some d
  | _, _ => none

/-- The number a variable takes from the environment above. -/
def referenceOf [Zero D] [One D] (up : Checkee D) (v : Variable D) : Option D :=
  match v.content with
  | .reference n _ => some (up.getDouble n)
  | _ => none

def findVariable (vars : List (Variable D)) (n : String) : Option (Variable D) :=
  vars.find? fun v => v.name == n

theorem findVariable_cons (v : Variable D) (vars : List (Variable D)) (n : String) :
    findVariable (v :: vars) n = if n = v.name then some v else findVariable vars n := by
  unfold findVariable
  by_cases h : n = v.name
  · simp [h]
  · have hne : (v.name == n) = false := by simpa using fun heq => h heq.symm
    simp [h, hne]

/-- Writing the numbers of variables with different names into the equations is
one assignment. -/
theorem foldl_setDouble (g : Variable D → Option D) (vars : List (Variable D))
    (hnodup : (vars.map Variable.name).Nodup) : ∀ c : Checkee D,
    vars.foldl (fun c v => match g v with
      | some d => c.setDouble v.name d
      | none => c) c = c.assign fun n => (findVariable vars n).bind g := by
  induction vars with
  | nil =>
    intro c
    exact c.assign_none.symm
  | cons v vars ih =>
    intro c
    obtain ⟨hv, hvars⟩ := nodup_cons.mp hnodup
    have hnone : findVariable vars v.name = none := by
      refine find?_eq_none.mpr ?_
      intro w hw heq
      exact hv (mem_map.mpr ⟨w, hw, beq_iff_eq.mp heq⟩)
    have hstep : (match g v with
        | some d => c.setDouble v.name d
        | none => c) = c.assign fun n => if n = v.name then g v else none := by
      cases g v with
      | none =>
        simp only [ite_self]
        exact c.assign_none.symm
      | some d => exact c.setDouble_eq v.name d
    rw [foldl_cons, hstep, ih hvars, Checkee.assign_assign]
    congr 1
    funext n
    rw [findVariable_cons]
    by_cases hn : n = v.name
    · rw [if_pos hn, if_pos hn, hn, hnone]
      rfl
    · rw [if_neg hn, if_neg hn, Option.or_none]

/-- **What is passed to the solver**: every variable its own number. -/
theorem updateReferences_pass [Zero D] [One D] (up c : Checkee D) (vars : List (Variable D))
    (hnodup : (vars.map Variable.name).Nodup) :
    (updateReferences up vars (passConstants vars c)).2 = c.assign fun n =>
      (findVariable vars n).bind fun v => (referenceOf up v).or (constantOf v) := by
  have hpass : passConstants vars c = c.assign fun n => (findVariable vars n).bind constantOf := by
    rw [← foldl_setDouble constantOf vars hnodup]
    unfold passConstants
    congr 1
    funext c v
    unfold constantOf
    split <;> simp_all
  have href : ∀ c : Checkee D, (updateReferences up vars c).2 =
      c.assign fun n => (findVariable vars n).bind (referenceOf up) := by
    intro c
    rw [← foldl_setDouble (referenceOf up) vars hnodup]
    unfold updateReferences
    dsimp only
    congr 1
    funext c v
    unfold referenceOf
    split <;> simp_all
  rw [hpass, href, Checkee.assign_assign]
  congr 1
  funext n
  cases findVariable vars n <;> rfl

/-! ## Given or default -/

/-- **The parameter values of an instance**: what its properties give, and the
defaults of the type for the rest. -/
def Template.own (T : Template D) (pairs : List (String × Given D)) (up : String → D)
    (n : String) : Option D :=
  (T.parameters.lookup n).map fun default =>
    match pairs.lookup n with
    | none => default
    | some (.value d) => d
    | some (.ident m) => up m

theorem lookup_eq_none {β : Type} {l : List (String × β)} {n : String} :
    l.lookup n = none ↔ n ∉ l.map Prod.fst := by
  refine lookup_eq_none_iff.trans ⟨fun h hn => ?_, fun h p hp => ?_⟩
  · obtain ⟨p, hp, rfl⟩ := mem_map.mp hn
    simpa using h p hp
  · exact bne_iff_ne.mpr fun hne => h (hne ▸ mem_map_of_mem hp)

theorem Template.own_eq_none {T : Template D} {pairs : List (String × Given D)} {up : String → D}
    {n : String} : T.own pairs up n = none ↔ n ∉ T.parameters.map Prod.fst :=
  Option.map_eq_none_iff.trans lookup_eq_none

theorem findVariable_set (ident : String) (f : Content D → Content D) (n : String)
    (vars : List (Variable D)) :
    findVariable (setVariable ident f vars) n =
      if n = ident then (findVariable vars n).map fun v => { v with content := f v.content }
      else findVariable vars n := by
  induction vars with
  | nil =>
    split <;> rfl
  | cons v vars ih =>
    rw [setVariable]
    by_cases hv : v.name = ident
    · rw [if_pos hv, findVariable_cons, findVariable_cons]
      by_cases hn : n = ident
      · have hnv : n = v.name := hn.trans hv.symm
        simp [hn, hnv.symm.trans hn]
      · have hnv : n ≠ v.name := fun h => hn (h.trans hv)
        simp [hn, hnv]
    · rw [if_neg hv, findVariable_cons, findVariable_cons, ih]
      by_cases hn : n = v.name
      · simp [hn, hv]
      · simp [hn]

theorem names_set (ident : String) (f : Content D → Content D) (vars : List (Variable D)) :
    (setVariable ident f vars).map Variable.name = vars.map Variable.name := by
  induction vars with
  | nil => rfl
  | cons v vars ih =>
    rw [setVariable]
    split
    · rfl
    · rw [map_cons, map_cons, ih]

section Instantiate

variable [Zero D] (T : Template D) (pairs : List (String × Given D))

theorem names_instantiate :
    (instantiate T pairs).map Variable.name = T.vars.reverse.map Variable.name := by
  unfold instantiate
  generalize T.vars.reverse = vars
  induction pairs generalizing vars with
  | nil => rfl
  | cons p pairs ih => rw [foldl_cons, ih, names_set]

/-- A variable of the instance is the type's, with the property put in. -/
theorem findVariable_instantiate (hkeys : (pairs.map Prod.fst).Nodup) (n : String) :
    findVariable (instantiate T pairs) n =
      match pairs.lookup n with
      | none => findVariable T.vars.reverse n
      | some g => (findVariable T.vars.reverse n).map fun v =>
        { v with content := g.apply v.content } := by
  unfold instantiate
  generalize T.vars.reverse = vars
  induction pairs generalizing vars with
  | nil => rfl
  | cons p pairs ih =>
    obtain ⟨hp, hpairs⟩ := nodup_cons.mp hkeys
    rw [foldl_cons, ih hpairs, lookup_cons, findVariable_set]
    by_cases hn : n = p.1
    · simp [hn, lookup_eq_none.mpr hp]
    · have hne : (n == p.1) = false := by simpa using hn
      simp [hn, hne]

omit [Zero D] in
/-- In the order of declaration the parameters come first. -/
theorem findVariable_vars (n : String) :
    (∃ d, T.parameters.lookup n = some d ∧
        findVariable T.vars.reverse n = some ⟨n, .constant (.double d), true⟩) ∨
      (T.parameters.lookup n = none ∧
        ∀ v, findVariable T.vars.reverse n = some v →
          v.pass = false ∧ ∃ c, v.content = .constant c) := by
  have hsplit : T.vars.reverse =
      T.parameters.map (fun p => (⟨p.1, .constant (.double p.2), true⟩ : Variable D)) ++
        T.constants.map fun p => ⟨p.1, .constant p.2, false⟩ := by
    simp [Template.vars, ← map_reverse]
  rw [hsplit]
  generalize T.parameters = parameters
  induction parameters with
  | nil =>
    refine .inr ⟨rfl, ?_⟩
    intro v hv
    have hmem := mem_of_find?_eq_some hv
    obtain ⟨p, -, rfl⟩ := mem_map.mp hmem
    exact ⟨rfl, p.2, rfl⟩
  | cons p parameters ih =>
    rw [map_cons, cons_append, findVariable_cons, lookup_cons]
    by_cases hn : n = p.1
    · left
      exact ⟨p.2, by simp [hn], by simp [hn]⟩
    · have hne : (n == p.1) = false := by simpa using hn
      simpa [hn, hne] using ih

/-- **What an instance passes to the solver is given or default.** -/
theorem own_instantiate [One D] (hkeys : (pairs.map Prod.fst).Nodup)
    (hparams : ∀ k ∈ pairs.map Prod.fst, k ∈ T.parameters.map Prod.fst) (up : Checkee D)
    (n : String) :
    ((findVariable (instantiate T pairs) n).bind fun v => (referenceOf up v).or (constantOf v)) =
      T.own pairs up.getDouble n := by
  rw [findVariable_instantiate T pairs hkeys, Template.own]
  rcases findVariable_vars T n with ⟨d, hd, hfind⟩ | ⟨hnone, hfind⟩
  · rw [hd, hfind]
    cases pairs.lookup n with
    | none => rfl
    | some g => cases g <;> rfl
  · have hlookup := lookup_eq_none.mpr fun hn => lookup_eq_none.mp hnone (hparams n hn)
    rw [hlookup, hnone]
    cases hv : findVariable T.vars.reverse n with
    | none => rfl
    | some v =>
      obtain ⟨hpass, c, hc⟩ := hfind v hv
      simp [referenceOf, constantOf, hpass, hc]

end Instantiate

/-! ## Designs and trees -/

/-- Subcircuit types with the equation lists the checker has made of them: no
variable is defined twice, and there were no errors. -/
structure Design (lib : Library D σ) (τ : Type) where
  templates : τ → Template D
  equations : τ → List (Equation (Value D))
  accepted : ∀ t, ∃ fuel,
    check lib fuel (collectDependencies (templates t).assignments) = some (equations t, 0)
  unique : ∀ t, ((templates t).assignments.map Assignment.result).Nodup
  vars_unique : ∀ t, ((templates t).vars.map Variable.name).Nodup

def types : List (Instance τ D) → List τ
  | [] => []
  | .mk t _ children :: rest => t :: (types children ++ types rest)

/-- No instance lies below another one of its type. -/
def Acyclic : List (Instance τ D) → Prop
  | [] => True
  | .mk t _ children :: rest => t ∉ types children ∧ Acyclic children ∧ Acyclic rest

/-- The properties of an instance are parameters of its type, each given once at
most. -/
def Valid (templates : τ → Template D) : List (Instance τ D) → Prop
  | [] => True
  | .mk t pairs children :: rest =>
    (pairs.map Prod.fst).Nodup ∧
    (∀ k ∈ pairs.map Prod.fst, k ∈ (templates t).parameters.map Prod.fst) ∧
    Valid templates children ∧ Valid templates rest

section Design

variable {lib : Library D σ} (design : Design lib τ)

/-- No equation refers to a variable with a generated name. -/
def Design.Plain : Prop :=
  ∀ t, ∀ a ∈ (design.templates t).assignments, ∀ v, a.body.Refers v → isGenerated v = false

/-- No equation calls a function with a memory. -/
def Design.Quiet : Prop :=
  ∀ t, ∀ a ∈ (design.templates t).assignments, a.body.Quiet

/-- What holds of the shared checkers between two runs: each has the equations of
its type, with some values for the parameters, and results of marked equations
only. -/
structure Fits (s : Shared τ D σ) : Prop where
  equations : ∀ t, ∃ own,
    (∀ n, n ∉ (design.templates t).parameters.map Prod.fst → own n = none) ∧
    (s.checkees t).equations.map Equation.recollect =
      ((design.equations t).map (assign own)).map Equation.recollect
  results : ∀ t n, (∀ e ∈ design.equations t, e.evalPossible → e.result ≠ n) →
    (s.checkees t).results n = none

variable [Zero D] [One D]

/-- The equations solved alone: from no results, and with nothing remembered but
`r`. -/
def solveAlone (lib : Library D σ) (r : Random σ) (es : List (Equation (Value D))) : Checkee D :=
  ⟨es, (evaluateAll lib es (fun _ => none) r).1⟩

/-- **Every instance for itself**: the environments of the instances below one
whose equations are solved in `up`, each with the constants that its type's
equations give alone, with its own parameter values. -/
def aloneAll (r : Random σ) (up : Checkee D) : List (Instance τ D) → List (Environment τ D)
  | [] => []
  | .mk t pairs children :: rest =>
    let own := (design.templates t).own pairs up.getDouble
    let c := solveAlone lib r ((design.equations t).map (assign own))
    .mk t (fetchConstants c
        ((instantiate (design.templates t) pairs).map (updateReference up)))
      (aloneAll r c children) :: aloneAll r up rest

/-- The whole tree: the root is solved with the values it has. -/
def aloneTree (r : Random σ) (s : Shared τ D σ) (t : τ) (children : List (Instance τ D)) :
    Environment τ D :=
  let c := solveAlone lib r (s.checkees t).equations
  .mk t (fetchConstants c (instantiate (design.templates t) [])) (aloneAll design r c children)

end Design

/-! ## One instance -/

theorem Design.steady {lib : Library D σ} {design : Design lib τ} (hplain : design.Plain) (t : τ) :
    ∃ front rest, design.equations t = front ++ rest ∧ Steady front rest ∧
      applyTypes lib (front ++ rest) = 0 ∧
      ∀ e ∈ front ++ rest, ∃ a ∈ (design.templates t).assignments, e.body = a.body := by
  obtain ⟨fuel, hcheck⟩ := design.accepted t
  obtain ⟨⟨es, errors⟩, hrun, heq⟩ := Option.bind_eq_some_iff.mp hcheck
  obtain ⟨hes, herr⟩ := Prod.mk.inj (Option.some.inj heq)
  obtain ⟨rfl, htypes⟩ := Nat.add_eq_zero_iff.mp herr
  obtain ⟨front, rest, hsplit, hsteady, hperm⟩ :=
    steady_of_accepted (design.unique t) (hplain t) hrun
  refine ⟨front, rest, hes.symm.trans hsplit, hsteady, hsplit ▸ htypes, ?_⟩
  intro e he
  have hmem := hperm.mem_iff.mp (mem_map_of_mem (hsplit ▸ he))
  exact ⟨e.assignment, hmem, rfl⟩

section Alone

variable [Zero D] [One D] {lib : Library D σ} {design : Design lib τ}

omit [Zero D] [One D] in
theorem assigned_steady {front rest : List (Equation (Value D))} (h : Steady front rest)
    (own : String → Option D) : Steady (front.map (assign own)) (rest.map (assign own)) := by
  have halike : ∀ es, List.Forall₂ Alike es (es.map (assign own)) :=
    fun es => forall₂_map_right_iff.mpr (forall₂_same.mpr fun e _ => assign_alike own e)
  exact h.alike (halike front) (halike rest)

variable {t : τ} {own : String → Option D} {c : Checkee D}

/-- With its own values in the equations, an instance is solved by evaluating
them in order. -/
theorem Design.solve_assigned (hplain : design.Plain) (hc : c.equations.map Equation.recollect =
      ((design.equations t).map (assign own)).map Equation.recollect) (n : ℕ) (r : Random σ) :
    ∃ es, solve lib (n + 1) c r =
        some (false,
          ⟨es, (evaluateAll lib ((design.equations t).map (assign own)) c.results r).1⟩,
          (evaluateAll lib ((design.equations t).map (assign own)) c.results r).2) ∧
      es.map Equation.recollect =
        ((design.equations t).map (assign own)).map Equation.recollect := by
  obtain ⟨front, rest, hsplit, hsteady, htypes, -⟩ := Design.steady hplain t
  have htypes' : applyTypes lib (front.map (assign own) ++ rest.map (assign own)) = 0 := by
    rw [← map_append, applyTypes_assign, htypes]
  rw [hsplit, map_append] at hc ⊢
  exact solve_steady (assigned_steady hsteady own) htypes' hc n r

/-- **One instance**: without functions that have a memory, and whatever results
there are, it gets what the equations give alone. -/
theorem Design.evaluate_alone (hplain : design.Plain) (hquiet : design.Quiet) (t : τ)
    (own : String → Option D) {results : String → Option (Value D)}
    (hresults : ∀ n, (∀ e ∈ design.equations t, e.evalPossible → e.result ≠ n) → results n = none)
    (r r₀ : Random σ) :
    evaluateAll lib ((design.equations t).map (assign own)) results r =
        ((solveAlone lib r₀ ((design.equations t).map (assign own))).results, r) ∧
      ∀ n, (∀ e ∈ design.equations t, e.evalPossible → e.result ≠ n) →
        (solveAlone lib r₀ ((design.equations t).map (assign own))).results n = none := by
  obtain ⟨front, rest, hsplit, hsteady, -, hbodies⟩ := Design.steady hplain t
  have hassigned := assigned_steady hsteady own
  have hlist : (design.equations t).map (assign own) =
      front.map (assign own) ++ rest.map (assign own) := by
    rw [hsplit, map_append]
  rw [hsplit] at hresults
  rw [hlist, hsplit]
  have hquiet' : ∀ e ∈ front.map (assign own), e.body.Quiet := by
    intro e he
    obtain ⟨d, hd, rfl⟩ := mem_map.mp he
    obtain ⟨a, ha, hbody⟩ := hbodies d (mem_append_left _ hd)
    exact assign_quiet (hbody ▸ hquiet t a ha)
  constructor
  · refine evaluateAll_steady hassigned hquiet' ?_ r r₀
    intro n hn
    refine hresults n ?_
    intro e he hmark
    rcases mem_append.mp he with he | he
    · have := hn (assign own e) (mem_map_of_mem he)
      rwa [assign_result] at this
    · exact absurd (hmark.symm.trans (hsteady.rest_unmarked e he)) (by simp)
  · intro n hn
    refine evaluateAll_frame hassigned ?_ r₀
    intro e he
    obtain ⟨d, hd, rfl⟩ := mem_map.mp he
    rw [assign_result]
    exact hn d (mem_append_left _ hd) (hsteady.front_marked d hd)

/-! ## The tree -/

variable {c' : Checkee D}

theorem getDouble_congr (h : c.results = c'.results) : c.getDouble = c'.getDouble := by
  funext n
  rw [getDouble, getDouble, h]

theorem fetchConstants_congr (h : c.results = c'.results) :
    fetchConstants c = fetchConstants c' := by
  funext vars
  unfold fetchConstants fetchConstant
  rw [getDouble_congr h]
  unfold getVector
  rw [h]

theorem updateReference_congr (h : c.results = c'.results) :
    updateReference c = updateReference c' := by
  funext v
  unfold updateReference
  rw [getDouble_congr h]

omit [Zero D] [One D] in
/-- The parameters of an instance replace those of the instance before. -/
theorem assign_fits {own own' : String → Option D}
    (hown : c.equations.map Equation.recollect =
      ((design.equations t).map (assign own)).map Equation.recollect)
    (hsub : ∀ n, own' n = none → own n = none) :
    (c.assign own').equations.map Equation.recollect =
      ((design.equations t).map (assign own')).map Equation.recollect := by
  have hswap : ∀ (own : String → Option D) (es : List (Equation (Value D))),
      (es.map (assign own)).map recollect = (es.map recollect).map (assign own) := by
    intro own es
    rw [map_map, map_map]
    exact map_congr_left fun e _ => assign_recollect own e
  show (c.equations.map (assign own')).map recollect = _
  rw [hswap, hown, ← hswap]
  refine congrArg (map recollect) ?_
  rw [map_map]
  refine map_congr_left fun e _ => ?_
  rw [Function.comp_apply, assign_assign]
  refine assign_congr ?_
  cases hn : own' e.result with
  | none => rw [hsub e.result hn, Option.or_none]
  | some d => rfl

variable [DecidableEq τ]

/-- The recursion of the source: a child gets its parameters, runs its own
solver, and the rest follows. -/
theorem runChildren_cons {fuel : ℕ} {up t : τ} {vars vars' : List (Variable D)}
    {children rest envs : List (Environment τ D)} {s s' s'' : Shared τ D σ}
    {env : Environment τ D} {failed failed' : Bool}
    (hpass : updateReferences (s.checkees up) vars (passConstants vars (s.checkees t)) = (vars', c))
    (hrun : runSolver lib fuel (.mk t vars' children) (s.set t c) = some (failed, env, s'))
    (hrest : runChildren lib fuel up rest s' = some (failed', envs, s'')) :
    runChildren lib fuel up (.mk t vars children :: rest) s =
      some (failed || failed', env :: envs, s'') := by
  obtain ⟨⟨f₁, s₁⟩, h₁, hrun⟩ := Option.bind_eq_some_iff.mp hrun
  obtain ⟨⟨f₂, cs, s₂⟩, h₂, hrun⟩ := Option.bind_eq_some_iff.mp hrun
  cases hrun
  rw [runChildren]
  simp only [hpass, h₁, h₂, hrest, Option.bind_eq_bind, Option.bind_some]

theorem runChildren_nil {fuel : ℕ} {up : τ} (s : Shared τ D σ) :
    runChildren lib fuel up [] s = some (false, [], s) := by
  rw [runChildren]

theorem runSolver_of_solve {fuel : ℕ} {t : τ} {s s' : Shared τ D σ} {c : Checkee D} {r : Random σ}
    {children envs : List (Environment τ D)} {failed : Bool}
    (hsolve : solve lib fuel (s.checkees t) s.random = some (false, c, r))
    (hchildren : runChildren lib fuel t children { s.set t c with random := r } =
      some (failed, envs, s'))
    (vars : List (Variable D)) :
    runSolver lib fuel (.mk t vars children) s =
      some (failed, .mk t (fetchConstants c vars) envs, s') := by
  unfold runSolver equationSolver
  simp only [hsolve, hchildren, Option.bind_eq_bind, Option.bind_some, set_self, Bool.false_or]

variable {s : Shared τ D σ}

omit [Zero D] [One D] in
theorem Fits.set (hs : Fits design s)
    (hparams : ∀ n, n ∉ (design.templates t).parameters.map Prod.fst → own n = none)
    (hown : c.equations.map Equation.recollect =
      ((design.equations t).map (assign own)).map Equation.recollect)
    (hresults : ∀ n, (∀ e ∈ design.equations t, e.evalPossible → e.result ≠ n) →
      c.results n = none) : Fits design (s.set t c) := by
  constructor
  · intro t'
    by_cases ht : t' = t
    · subst ht
      rw [set_self]
      exact ⟨own, hparams, hown⟩
    · rw [s.set_of_ne ht]
      exact hs.equations t'
  · intro t' m hm
    by_cases ht : t' = t
    · subst ht
      rw [set_self]
      exact hresults m hm
    · rw [s.set_of_ne ht]
      exact hs.results t' m hm

/-- **One environment**: its constants are those its equations give alone; then
it is the turn of its children. -/
theorem runSolver_alone (hplain : design.Plain) (hquiet : design.Quiet) (hs : Fits design s)
    (hparams : ∀ n, n ∉ (design.templates t).parameters.map Prod.fst → own n = none)
    (hown : (s.checkees t).equations.map Equation.recollect =
      ((design.equations t).map (assign own)).map Equation.recollect)
    {r₀ : Random σ} {alone : Checkee D}
    (halone : alone = solveAlone lib r₀ ((design.equations t).map (assign own))) (n : ℕ) :
    ∃ c, Fits design (s.set t c) ∧ c.results = alone.results ∧
      ∀ vars children failed envs s', runChildren lib (n + 1) t children (s.set t c) =
          some (failed, envs, s') →
        runSolver lib (n + 1) (.mk t vars children) s =
          some (failed, .mk t (fetchConstants alone vars) envs, s') := by
  obtain ⟨es, hsolve, hes⟩ := Design.solve_assigned hplain hown n s.random
  obtain ⟨heval, hnone⟩ := Design.evaluate_alone hplain hquiet t own (hs.results t) s.random r₀
  rw [← halone] at heval hnone
  rw [heval] at hsolve
  refine ⟨⟨es, alone.results⟩, hs.set hparams hes hnone, rfl, ?_⟩
  intro vars children failed envs s' hchildren
  have hfetch : fetchConstants ⟨es, alone.results⟩ = fetchConstants alone :=
    fetchConstants_congr rfl
  rw [← hfetch]
  exact runSolver_of_solve hsolve hchildren vars

/-- **The children of an environment**, in whatever order they come: each ends
up with the constants that it would have alone, and nothing else has changed
than the checkers of their types. -/
theorem runChildren_alone (hplain : design.Plain) (hquiet : design.Quiet) (r₀ : Random σ) (n : ℕ) :
    ∀ (cs : List (Instance τ D)) {up : τ} {s : Shared τ D σ} {c : Checkee D}, Fits design s →
      Valid design.templates cs → Acyclic cs → up ∉ types cs →
      (s.checkees up).results = c.results →
      ∃ s', runChildren lib (n + 1) up (environments design.templates cs) s =
          some (false, aloneAll design r₀ c cs, s') ∧
        Fits design s' ∧ (∀ t ∉ types cs, s'.checkees t = s.checkees t)
  | [], up, s, c, hs, _, _, _, _ => by
    refine ⟨s, ?_, hs, fun _ _ => rfl⟩
    rw [environments, aloneAll, runChildren_nil]
  | .mk t pairs children :: rest, up, s, c, hs, hvalid, hacyclic, hup, hc => by
    rw [Valid] at hvalid
    rw [Acyclic] at hacyclic
    rw [environments, aloneAll]
    obtain ⟨hkeys, hparams, hvalid₁, hvalid₂⟩ := hvalid
    obtain ⟨hbelow, hacyclic₁, hacyclic₂⟩ := hacyclic
    simp only [types, mem_cons, mem_append, not_or] at hup
    obtain ⟨hupt, hup₁, hup₂⟩ := hup
    let T := design.templates t
    let own := T.own pairs c.getDouble
    let alone := solveAlone lib r₀ ((design.equations t).map (assign own))
    have hnames : ((instantiate T pairs).map Variable.name).Nodup := by
      rw [names_instantiate, map_reverse]
      exact nodup_reverse.mpr (design.vars_unique t)
    have hpass : updateReferences (s.checkees up) (instantiate T pairs)
        (passConstants (instantiate T pairs) (s.checkees t)) =
        ((instantiate T pairs).map (updateReference c), (s.checkees t).assign own) := by
      refine Prod.ext (by rw [← updateReference_congr hc]; rfl) ?_
      rw [updateReferences_pass _ _ _ hnames]
      congr 1
      funext m
      rw [own_instantiate T pairs hkeys hparams, getDouble_congr hc]
    have howned : ∀ m, m ∉ T.parameters.map Prod.fst → own m = none :=
      fun m => Template.own_eq_none.mpr
    obtain ⟨before, hbefore, hequations⟩ := hs.equations t
    have hassigned := assign_fits hequations fun m (hm : own m = none) =>
      hbefore m (Template.own_eq_none.mp hm)
    have hs₁ := hs.set howned hassigned (hs.results t)
    obtain ⟨c₁, hs₂, hc₁, hrun⟩ := runSolver_alone hplain hquiet hs₁ howned
      (by rw [set_self]; exact hassigned) (show alone = _ from rfl) n
    obtain ⟨s₃, hrun₃, hs₃, hframe₃⟩ := runChildren_alone hplain hquiet r₀ n children hs₂ hvalid₁
      hacyclic₁ hbelow (c := alone) (by rw [set_self]; exact hc₁)
    have hframe : ∀ t', t' ≠ t → t' ∉ types children → s₃.checkees t' = s.checkees t' := by
      intro t' ht hchildren
      rw [hframe₃ t' hchildren, set_of_ne _ ht, set_of_ne _ ht]
    obtain ⟨s₄, hrun₄, hs₄, hframe₄⟩ := runChildren_alone hplain hquiet r₀ n rest hs₃ hvalid₂
      hacyclic₂ hup₂ (c := c) (by rw [hframe up hupt hup₁]; exact hc)
    refine ⟨s₄, runChildren_cons hpass (hrun _ _ _ _ _ hrun₃) hrun₄, hs₄, ?_⟩
    intro t' ht'
    simp only [types, mem_cons, mem_append, not_or] at ht'
    rw [hframe₄ t' ht'.2.2, hframe t' ht'.1 ht'.2.1]

/-- **Instances of one type do not interfere.**  After `runSolver` the constants
of every instance are those its type's equations give alone, with the parameter
values of this instance, given or default; and the shared checkers are ready for
the next run. -/
theorem runSolver_isolated (hplain : design.Plain) (hquiet : design.Quiet) {t : τ}
    {children : List (Instance τ D)} (hvalid : Valid design.templates children)
    (hacyclic : Acyclic children) (hroot : t ∉ types children) {s : Shared τ D σ}
    (hs : Fits design s) (r₀ : Random σ) {fuel : ℕ} (hf : 0 < fuel) :
    ∃ s', runSolver lib fuel (.mk t (instantiate (design.templates t) [])
          (environments design.templates children)) s =
        some (false, aloneTree design r₀ s t children, s') ∧ Fits design s' := by
  obtain ⟨n, rfl⟩ : ∃ n, fuel = n + 1 := ⟨fuel - 1, by omega⟩
  obtain ⟨own, hparams, hown⟩ := hs.equations t
  obtain ⟨c, hs₁, hc, hrun⟩ := runSolver_alone hplain hquiet hs hparams hown rfl n
  have hsame : (solveAlone lib r₀ ((design.equations t).map (assign own))).results =
      (solveAlone lib r₀ (s.checkees t).equations).results := by
    show (evaluateAll lib _ _ r₀).1 = (evaluateAll lib _ _ r₀).1
    rw [← evaluateAll_recollect, ← hown, evaluateAll_recollect]
  obtain ⟨s', hchildren, hs', -⟩ := runChildren_alone hplain hquiet r₀ n children hs₁ hvalid
    hacyclic hroot (c := solveAlone lib r₀ (s.checkees t).equations)
    (by rw [set_self]; exact hc.trans hsame)
  refine ⟨s', ?_, hs'⟩
  rw [hrun _ _ _ _ _ hchildren, fetchConstants_congr hsame]
  rfl

end Alone

/-! ## A call in the equations

A type with one parameter and one equation, which calls a function; whether its
instances interfere depends on the function. -/

section OneCall

/-- A library in which every function squares its argument, apart from those
with a memory. -/
def squares : Library ℕ ℕ where
  retval := fun _ _ => .double
  eval := fun _ args =>
    match args with
    | [.double d] => .double (d * d)
    | _ => .double 0
  srand := id
  rand := fun seed => (seed, seed + 1)

variable (f : String)

/-- A type with the parameter `R`, the equation `s = f(R)` and an element that
uses `s`, and a root without equations. -/
def callTemplates : Bool → Template ℕ
  | true => ⟨[("R", 1)], [⟨"s", .application f [.reference "R"]⟩], [("s", .double 0)]⟩
  | false => ⟨[], [], []⟩

/-- The equations of the type with a value for `R`, before the check or after. -/
def callEquations (d : ℕ) (marked : Bool) : List (Equation (Value ℕ)) :=
  [⟨"R", .constant (.double d), [], false, marked⟩,
    ⟨"s", .application f [.reference "R"], ["R"], false, marked⟩]

theorem check_call (d : ℕ) (marked : Bool) :
    check squares 3 (callEquations f d marked) = some (callEquations f d true, 0) := by
  have hreorder : reorderEquations (callEquations f d marked) = callEquations f d true := by
    unfold callEquations reorderEquations
    rw [reorderFrom, if_pos (show evaluable _ _ from rfl)]
    show reorderFrom [_] [] [_] = _
    rw [reorderFrom, if_pos (show evaluable _ _ from rfl)]
    show reorderFrom [_, _] [] [] = _
    rw [reorderFrom]
    rfl
  have hcycles : detectCycles 3 ((callEquations f d marked).map recollect) =
      some (callEquations f d marked, 0) := rfl
  unfold check recheck
  rw [hcycles, Option.map_some, hreorder]
  rfl

theorem check_nil {lib : Library ℕ ℕ} : check lib 3 [] = some ([], 0) := by
  show some (reorderFrom [] [] [], 0 + applyTypes lib (reorderFrom [] [] [])) = _
  rw [reorderFrom]
  rfl

def oneCall : Design squares Bool where
  templates := callTemplates f
  equations := fun t => if t then callEquations f 1 true else []
  accepted := by
    intro t
    cases t with
    | false => exact ⟨3, check_nil⟩
    | true => exact ⟨3, check_call f 1 false⟩
  unique := by
    intro t
    cases t <;> simp [callTemplates, Template.assignments]
  vars_unique := by
    intro t
    cases t <;> simp [callTemplates, Template.vars]

/-- Two instances of the type in the root, one with a value for `R`. -/
def twoInstances : List (Instance Bool ℕ) := [.mk true [("R", .value 3)] [], .mk true [] []]

def unsolved : Shared Bool ℕ ℕ :=
  ⟨fun t => ⟨(oneCall f).equations t, fun _ => none⟩, ⟨1, false⟩⟩

theorem mem_callAssignments {t : Bool} {a : Assignment (Value ℕ)}
    (h : a ∈ (callTemplates f t).assignments) :
    a = ⟨"R", .constant (.double 1)⟩ ∨ a = ⟨"s", .application f [.reference "R"]⟩ := by
  cases t with
  | false => cases h
  | true => simpa [callTemplates, Template.assignments] using h

theorem oneCall_plain : (oneCall f).Plain := by
  intro t a ha v hv
  rcases mem_callAssignments f ha with rfl | rfl
  · cases hv
  · cases hv with
    | arg hmem hv =>
      cases mem_singleton.mp hmem
      cases hv
      decide

theorem oneCall_quiet (hrandom : f ≠ "random") (hsrandom : f ≠ "srandom") : (oneCall f).Quiet := by
  have hcalls : ∀ t, ∀ a ∈ (callTemplates f t).assignments, ∀ g, a.body.Calls g → f = g := by
    intro t a ha g hg
    rcases mem_callAssignments f ha with rfl | rfl
    · cases hg
    · cases hg with
      | here => rfl
      | arg hmem hg =>
        cases mem_singleton.mp hmem
        cases hg
  intro t a ha
  exact ⟨fun h => hrandom (hcalls t a ha _ h), fun h => hsrandom (hcalls t a ha _ h)⟩

theorem unsolved_fits : Fits (oneCall f) (unsolved f) := by
  constructor
  · intro t
    refine ⟨fun _ => none, fun _ _ => rfl, ?_⟩
    rw [show assign (fun _ => (none : Option ℕ)) = id from rfl, map_id]
    rfl
  · intro t n _
    rfl

theorem twoInstances_valid : Valid (oneCall f).templates twoInstances := by
  simp [twoInstances, Valid, oneCall, callTemplates]

theorem twoInstances_acyclic : Acyclic twoInstances := by simp [twoInstances, Acyclic, types]

theorem twoInstances_types : false ∉ types twoInstances := by simp [twoInstances, types]

/-- The variables of an instance: its parameter, and its `s`. -/
def callVars (d s : ℕ) : List (Variable ℕ) :=
  [⟨"R", .constant (.double d), true⟩, ⟨"s", .constant (.double s), false⟩]

/-- What a call returns, as the variable `s` gets it. -/
def callResult (d : ℕ) (r : Random ℕ) : ℕ :=
  getResultDouble (some (squares.apply f [.double d] r).1)

/-- Alone, both instances call the function with the same memory. -/
theorem aloneTree_call (r : Random ℕ) :
    aloneTree (oneCall f) r (unsolved f) false twoInstances =
      .mk false []
        [.mk true (callVars 3 (callResult f 3 r)) [],
          .mk true (callVars 1 (callResult f 1 r)) []] := by
  unfold aloneTree twoInstances
  simp only [aloneAll]
  rfl

/-- Both instances get the square of their own `R`, given or default. -/
theorem runSolver_isolated_squares :
    ∃ s', runSolver squares 3
        (.mk false [] (environments (oneCall "sqr").templates twoInstances)) (unsolved "sqr") =
      some (false, .mk false [] [.mk true (callVars 3 9) [], .mk true (callVars 1 1) []], s') := by
  obtain ⟨s', hrun, -⟩ := runSolver_isolated (oneCall_plain "sqr")
    (oneCall_quiet "sqr" (by decide) (by decide)) (twoInstances_valid "sqr") twoInstances_acyclic
    twoInstances_types (unsolved_fits "sqr") ⟨1, false⟩ (show 0 < 3 by decide)
  rw [aloneTree_call] at hrun
  exact ⟨s', hrun⟩

theorem solve_call (d : ℕ) (results : String → Option (Value ℕ)) (r : Random ℕ) :
    solve squares 3 ⟨callEquations f d true, results⟩ r =
      some (false,
        ⟨callEquations f d true, (evaluateAll squares (callEquations f d true) results r).1⟩,
        (evaluateAll squares (callEquations f d true) results r).2) := by
  unfold solve
  simp only [check_call]
  rfl

/-- An instance in the root: its value is written into the equations, whatever
value the instance before has left there. -/
theorem runChildren_call {s : Shared Bool ℕ ℕ} {d₀ : ℕ}
    (hs : (s.checkees true).equations = callEquations f d₀ true) (d : ℕ) :
    ∃ s₁, (s₁.checkees true).equations = callEquations f d true ∧
      s₁.random = (squares.apply f [.double d] s.random).2 ∧
      ∀ rest envs s', runChildren squares 3 false rest s₁ = some (false, envs, s') →
        runChildren squares 3 false (.mk true (callVars d 0) [] :: rest) s =
          some (false, .mk true (callVars d (callResult f d s.random)) [] :: envs, s') := by
  let c : Checkee ℕ := ⟨callEquations f d true, (s.checkees true).results⟩
  let out := evaluateAll squares c.equations c.results s.random
  have hpass : updateReferences (s.checkees false) (callVars d 0)
      (passConstants (callVars d 0) (s.checkees true)) = (callVars d 0, c) := by
    show (_, (s.checkees true).setDouble "R" d) = _
    unfold setDouble
    rw [hs]
    rfl
  have hsolve : solve squares 3 ((s.set true c).checkees true) (s.set true c).random =
      some (false, ⟨c.equations, out.1⟩, out.2) := by
    exact solve_call f d _ _
  have hrun := runSolver_of_solve hsolve (runChildren_nil _) (callVars d 0)
  refine ⟨_, ?_, ?_, fun rest envs s' hrest => runChildren_cons hpass hrun hrest⟩
  · rw [set_self]
  · rfl

/-- **A function with a memory.**  The first instance seeds the generator, and
`srandom` answers 1; for the second one the answer is 0, and no state of the
generator gives both to instances that are solved alone. -/
theorem runSolver_srandom :
    (oneCall "srandom").Plain ∧ Valid (oneCall "srandom").templates twoInstances ∧
      Acyclic twoInstances ∧ false ∉ types twoInstances ∧
      Fits (oneCall "srandom") (unsolved "srandom") ∧
      ∃ env s', runSolver squares 3
          (.mk false [] (environments (oneCall "srandom").templates twoInstances))
          (unsolved "srandom") = some (false, env, s') ∧
        env = .mk false [] [.mk true (callVars 3 1) [], .mk true (callVars 1 0) []] ∧
        ∀ r, env ≠ aloneTree (oneCall "srandom") r (unsolved "srandom") false twoInstances := by
  refine ⟨oneCall_plain _, twoInstances_valid _, twoInstances_acyclic, twoInstances_types,
    unsolved_fits _, .mk false [] [.mk true (callVars 3 1) [], .mk true (callVars 1 0) []], ?_⟩
  have hroot : solve squares 3 ((unsolved "srandom").checkees false) (unsolved "srandom").random =
      some (false, (unsolved "srandom").checkees false, (unsolved "srandom").random) := by
    show solve squares 3 ⟨[], _⟩ _ = _
    unfold solve
    simp only [check_nil]
    rfl
  let s := (unsolved "srandom").set false ((unsolved "srandom").checkees false)
  have hs : (s.checkees true).equations = callEquations "srandom" 1 true := rfl
  obtain ⟨s₁, hs₁, hr₁, hfirst⟩ := runChildren_call "srandom" hs 3
  obtain ⟨s₂, -, -, hsecond⟩ := runChildren_call "srandom" hs₁ 1
  have hchildren := hfirst _ _ _ (hsecond _ _ _ (runChildren_nil s₂))
  refine ⟨s₂, ?_, rfl, ?_⟩
  · rw [hr₁] at hchildren
    have henv : environments (oneCall "srandom").templates twoInstances =
        [.mk true (callVars 3 0) [], .mk true (callVars 1 0) []] := by
      simp only [twoInstances, environments]
      rfl
    rw [henv]
    exact runSolver_of_solve hroot hchildren []
  · intro r h
    rw [aloneTree_call] at h
    obtain ⟨seed, done⟩ := r
    cases done <;> simp [callVars, callResult, Library.apply, getResultDouble] at h

end OneCall

end Environments

end Qucs
