/-
# The equation list and the passes of the checker

`qucs-core/src/equation.cpp`: the expression tree, the list of assignments,
and the passes of `checker::check` that look at names only — collecting
dependencies, detecting cycles, reordering. The linked list of nodes is a
`List`; what a pass writes into a node is a field of `Equation`.

* node::recurseDependencies: `recurseDependencies` (explicit fuel)
* checker::detectCycles: `detectCycles` (explicit fuel)
* checker::findEquation: `findEquation` (the FIRST of that name)

`recurseDependencies` has no visited set and need not return. It takes fuel
and answers `none` when the fuel runs out; `Qucs.Equation.DetectCycles` says
when some fuel suffices.
-/
import Mathlib.Data.List.Basic

namespace Qucs

open List

/-- An expression: `constant`, `reference` and `application` of the source.
`K` is the type of constants; the checker never looks inside one. -/
inductive Node (K : Type) where
  | constant (c : K)
  | reference (n : String)
  | application (n : String) (args : List (Node K))

namespace Node

variable {K : Type}

mutual

/-- `addDependencies` of the three node classes. A reference is put at the
head of the list, an application hands the list through its arguments. -/
def addDependencies : Node K → List String → List String
  | .constant _, depends => depends
  | .reference n, depends => n :: depends
  | .application _ args, depends => addArgDependencies args depends

/-- The argument loop of `application::addDependencies`. -/
def addArgDependencies : List (Node K) → List String → List String
  | [], depends => depends
  | arg :: args, depends => addArgDependencies args (arg.addDependencies depends)

end

inductive Refers : Node K → String → Prop
  | here (v : String) : Refers (.reference v) v
  | arg {n : String} {args : List (Node K)} {a : Node K} {v : String} :
      a ∈ args → Refers a v → Refers (.application n args) v

mutual

theorem mem_addDependencies {v : String} : ∀ (b : Node K) (depends : List String),
    v ∈ b.addDependencies depends ↔ b.Refers v ∨ v ∈ depends
  | .constant c, depends => by
    constructor
    · exact Or.inr
    · rintro (h | h)
      · cases h
      · exact h
  | .reference n, depends => by
    simp only [addDependencies, mem_cons]
    constructor
    · rintro (rfl | h)
      · exact Or.inl (.here v)
      · exact Or.inr h
    · rintro (h | h)
      · cases h with
        | here => exact Or.inl rfl
      · exact Or.inr h
  | .application n args, depends => by
    rw [addDependencies, mem_addArgDependencies args depends]
    constructor
    · rintro (⟨a, ha, h⟩ | h)
      · exact Or.inl (.arg ha h)
      · exact Or.inr h
    · rintro (h | h)
      · cases h with
        | arg ha h => exact Or.inl ⟨_, ha, h⟩
      · exact Or.inr h

theorem mem_addArgDependencies {v : String} : ∀ (args : List (Node K)) (depends : List String),
    v ∈ addArgDependencies args depends ↔ (∃ a ∈ args, a.Refers v) ∨ v ∈ depends
  | [], depends => by simp [addArgDependencies]
  | arg :: args, depends => by
    rw [addArgDependencies, mem_addArgDependencies args, mem_addDependencies arg]
    simp only [exists_mem_cons_iff]
    constructor
    · rintro (h | h | h)
      · exact Or.inl (Or.inr h)
      · exact Or.inl (Or.inl h)
      · exact Or.inr h
    · rintro ((h | h) | h)
      · exact Or.inr (Or.inl h)
      · exact Or.inl h
      · exact Or.inr (Or.inr h)

end

end Node

/-- An equation as the parser builds it: the variable it defines and its
right-hand side. -/
structure Assignment (K : Type) where
  result : String
  body : Node K

/-- An equation as the checker sees it: an assignment with the fields the
passes write into its node. -/
structure Equation (K : Type) where
  result : String
  body : Node K
  dependencies : List String
  cycle : Bool
  evalPossible : Bool

section Checker

variable {K : Type}

/-- The node constructor clears all flags, `checker::collectDependencies`
then applies the dependency list. -/
def Assignment.collectDependencies (a : Assignment K) : Equation K where
  result := a.result
  body := a.body
  dependencies := a.body.addDependencies []
  cycle := false
  evalPossible := false

def collectDependencies (as : List (Assignment K)) : List (Equation K) :=
  as.map Assignment.collectDependencies

/-- `checker::findEquation`: the first equation resulting in the variable. -/
def findEquation (root : List (Equation K)) (n : String) : Option (Equation K) :=
  root.find? (fun eqn => eqn.result == n)

/-- `checker::foldDependencies`: unique entries, first occurrences kept. -/
def foldDependencies (deps : List String) : List String :=
  deps.foldl (fun res var => if res.contains var then res else res ++ [var]) []

/-! ## Cycle detection -/

variable (equations : List (Equation K))

/-- The loop over the passed dependency variables. `sub` collects the
dependencies of the children that carry no cycle flag; a flagged child sets
the flag of the parent. -/
def visitChildren (equations : List (Equation K)) :
    List String → List String → Bool → List String × Bool
  | [], sub, cycle => (sub, cycle)
  | var :: deps, sub, cycle =>
    match findEquation equations var with
    | none => visitChildren equations deps sub cycle
    | some child =>
      if child.cycle = false then
        visitChildren equations deps (sub ++ child.dependencies) cycle
      else visitChildren equations deps sub true

/-- `node::recurseDependencies` for the equation resulting in `result`,
whose cycle flag is `cycle`. Returned are the dependency list and the flag. -/
def recurseDependencies (equations : List (Equation K)) (result : String) :
    Nat → Bool → List String → Option (List String × Bool)
  | 0, _, _ => none
  | fuel + 1, cycle, deps =>
    -- the abort condition for recursion first
    if result ∈ deps then some (deps, true)
    else
      let (sub, cycle) := visitChildren equations deps [] cycle
      if cycle = true ∧ sub ≠ [] then
        match recurseDependencies equations result fuel cycle sub with
        | none => none
        | some (res, cycle) => some (deps ++ res, cycle)
      else some (deps ++ sub, cycle)

/-- The loop of `checker::detectCycles`. `seen` are the equations the loop
has passed, with what it wrote into them; the counter of errors is returned
beside the list. -/
def detectCyclesFrom (fuel : Nat) :
    List (Equation K) → List (Equation K) → Option (List (Equation K) × Nat)
  | seen, [] => some (seen, 0)
  | seen, eqn :: rest =>
    match recurseDependencies (seen ++ eqn :: rest) eqn.result fuel eqn.cycle eqn.dependencies with
    | none => none
    | some (deps, cycle) =>
      if eqn.result ∈ deps ∨ cycle = true then
        (detectCyclesFrom fuel (seen ++ [{ eqn with cycle := cycle }]) rest).map
          fun (eqns, err) => (eqns, err + 1)
      else
        -- set folded variable dependencies
        detectCyclesFrom fuel
          (seen ++ [{ eqn with dependencies := foldDependencies deps, cycle := cycle }]) rest

/-- `checker::detectCycles`: the equations after the pass and the number of
errors, if the recursion returns within the fuel. -/
def detectCycles (fuel : Nat) (equations : List (Equation K)) : Option (List (Equation K) × Nat) :=
  detectCyclesFrom fuel [] equations

/-! ## Evaluation order -/

/-- `checker::isGenerated`: a `".[0-9]{4}"` suffix on at least six characters. -/
def isGenerated (var : String) : Bool :=
  match var.toList.reverse with
  | d₁ :: d₂ :: d₃ :: d₄ :: dot :: _ :: _ =>
    d₁.isDigit && d₂.isDigit && d₃.isDigit && d₄.isDigit && dot == '.'
  | _ => false

/-- The test of `checker::reorderEquations`: among the dependencies of `eqn`,
as many are results of the already moved equations `root` as are left after
taking off the ones with a generated name. -/
def evaluable (root : List (Equation K)) (eqn : Equation K) : Bool :=
  let found := eqn.dependencies.countP fun var => (findEquation root var).isSome
  let gens := eqn.dependencies.countP isGenerated
  found == eqn.dependencies.length - gens

/-- The loop of `checker::reorderEquations`. `root` is the new list, the old
list is `before ++ after`, and the loop variable points at the head of
`after`. A moved equation starts the loop over at the head of the old list. -/
def reorderFrom (root before : List (Equation K)) : List (Equation K) → List (Equation K)
  | [] => root ++ before
  | eqn :: after =>
    if evaluable root eqn then
      reorderFrom (root ++ [{ eqn with evalPossible := true }]) [] (before ++ after)
    else reorderFrom root (before ++ [eqn]) after
termination_by after => (before.length + after.length, after.length)
decreasing_by
  · apply Prod.Lex.left
    simp
  · have hlen : (before ++ [eqn]).length + after.length
        = before.length + (eqn :: after).length := by
      simp only [List.length_append, List.length_cons, List.length_nil]; omega
    rw [hlen]
    apply Prod.Lex.right
    simp

/-- `checker::reorderEquations`; remaining equations are appended. -/
def reorderEquations : List (Equation K) :=
  reorderFrom [] [] equations

/-! ## The small facts about the helpers -/

/-- What a child contributes to the next dependency list. -/
def childDependencies (var : String) : List String :=
  match findEquation equations var with
  | none => []
  | some child => if child.cycle = false then child.dependencies else []

/-- The variable is defined by an equation whose cycle flag is set. -/
def childCyclic (var : String) : Bool :=
  match findEquation equations var with
  | none => false
  | some child => child.cycle

theorem visitChildren_eq (equations : List (Equation K)) :
    ∀ (deps sub : List String) (cycle : Bool),
      visitChildren equations deps sub cycle =
        (sub ++ deps.flatMap (childDependencies equations),
          cycle || deps.any (childCyclic equations))
  | [], sub, cycle => by simp [visitChildren]
  | var :: deps, sub, cycle => by
    rw [visitChildren]
    cases hfind : findEquation equations var with
    | none =>
      rw [visitChildren_eq equations deps]
      simp [childDependencies, childCyclic, hfind]
    | some child =>
      by_cases hc : child.cycle = false
      · show (if child.cycle = false then _ else _) = _
        rw [if_pos hc, visitChildren_eq equations deps]
        simp [childDependencies, childCyclic, hfind, hc]
      · show (if child.cycle = false then _ else _) = _
        rw [if_neg hc, visitChildren_eq equations deps]
        simp [childDependencies, childCyclic, hfind, hc]

theorem mem_foldDependencies {v : String} (deps : List String) :
    v ∈ foldDependencies deps ↔ v ∈ deps := by
  have hfold : ∀ (ds res : List String),
      v ∈ ds.foldl (fun res var => if res.contains var then res else res ++ [var]) res ↔
        v ∈ res ∨ v ∈ ds := by
    intro ds
    induction ds with
    | nil => simp
    | cons d ds ih =>
      intro res
      rw [foldl_cons, ih]
      by_cases hd : d ∈ res
      · simp only [contains_iff_mem, hd, if_true, mem_cons]
        constructor
        · rintro (h | h)
          · exact Or.inl h
          · exact Or.inr (Or.inr h)
        · rintro (h | rfl | h)
          · exact Or.inl h
          · exact Or.inl hd
          · exact Or.inr h
      · simp only [contains_iff_mem, hd, if_false, mem_append, mem_cons,
          not_mem_nil, or_false, or_assoc]
  simpa [foldDependencies] using hfold deps []

theorem findEquation_eq_some {root : List (Equation K)} {n : String} {eqn : Equation K}
    (h : findEquation root n = some eqn) : eqn ∈ root ∧ eqn.result = n :=
  ⟨mem_of_find?_eq_some h, by simpa using find?_some h⟩

theorem findEquation_isSome {root : List (Equation K)} {n : String} :
    (findEquation root n).isSome ↔ ∃ eqn ∈ root, eqn.result = n := by
  simp [findEquation, find?_isSome]

theorem mem_collectDependencies {a : Assignment K} {v : String} :
    v ∈ a.collectDependencies.dependencies ↔ a.body.Refers v := by
  rw [Assignment.collectDependencies, Node.mem_addDependencies]
  simp

end Checker

end Qucs
