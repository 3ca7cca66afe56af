/-
# Running the analyses

`net.cpp`, `parasweep.cpp`, `analysis.cpp`, `dataset.cpp`. A sweep
sets its parameter to one value after the other and runs its children at each.
An innermost analysis adds a value to each of its variables, at every point of
its own independent vector if it has one. The values are appended flat; which
vectors a variable depends on is a list of names, to which every sweep around
the analysis adds its parameter.

* dataset::addDependency, `add`: `Dataset.addTo`
* acsolver::saveAllResults: `savePoint` (any innermost analysis)
* parasweep::initialize: `initializeAnalysis`

The dataset holds vectors by name: one is added only when none of that name is
found. What the circuit computes is a parameter, `Setup.result`.
-/
import Qucs.Sweeps.Order
import Qucs.Lib.Radix

namespace Qucs.Sweeps

open Function (update)

/-! ## The dataset -/

/-- A variable: the analysis it comes from, its values, and the vectors it
depends on. -/
structure Variable (V : Type) where
  origin : String
  values : List V
  dependencies : Option (List String)

/-- The independent vectors and the variables, by their names. -/
structure Dataset (V : Type) where
  dependencies : String → Option (List V)
  vars : String → Option (Variable V)

namespace Dataset

variable {V : Type} (d : Dataset V)

/-- The variable is created at its first value, with the dependency `f`. -/
def saveVariable (origin n : String) (z : V) (f : Option String) : Dataset V :=
  { d with vars := update d.vars n (some (match d.vars n with
      | none => ⟨origin, [z], f.map ([·])⟩
      | some v => { v with values := v.values ++ [z] })) }

/-- Finds or creates an independent vector, and adds a value to it. -/
def addTo (n : String) (z : Option V) : Dataset V :=
  { d with dependencies :=
      update d.dependencies n (some ((d.dependencies n).getD [] ++ z.toList)) }

def assignDependency (origin depvar : String) : Dataset V :=
  { d with vars := fun n => (d.vars n).map fun v =>
      if v.origin = origin then
        { v with dependencies := some (match v.dependencies with
            | some deplist => if depvar ∈ deplist then deplist else deplist ++ [depvar]
            | none => [depvar]) }
      else v }

end Dataset

/-! ## Running -/

/-- What is run: the parameter and the values of each sweep, the independent
vector and the variables of each innermost analysis, and the value it computes
for a variable at a point from the parameters. A sweep, and an independent
vector, has at least one value. -/
structure Setup (A : Analyses) (V : Type) where
  param : ℕ → String
  values : ℕ → List V
  indep : ℕ → Option (String × List V)
  vars : ℕ → List String
  result : ℕ → (String → V) → String → ℕ → V
  param_inj : ∀ a ∈ A.actions, ∀ b ∈ A.actions, (A.object a).type = .sweep →
    (A.object b).type = .sweep → param a = param b → a = b
  values_ne : ∀ a, values a ≠ []
  indep_ne : ∀ a f points, indep a = some (f, points) → points ≠ []
  vars_nodup : ∀ a, (vars a).Nodup

/-- The parameters, how often each analysis was run, and the dataset. -/
structure State (V : Type) where
  env : String → V
  runs : ℕ → ℕ
  data : Dataset V

def State.initial {V : Type} (env : String → V) : State V :=
  ⟨env, fun _ => 0, ⟨fun _ => none, fun _ => none⟩⟩

section Run

variable {A : Analyses} {V : Type} (S : Setup A V) (children : ℕ → Option (List ℕ))

def Setup.indepName (a : ℕ) : Option String := (S.indep a).map Prod.fst

/-- The values an innermost analysis saves of each variable in one run. -/
def Setup.points (a : ℕ) : ℕ :=
  match S.indep a with
  | none => 1
  | some (_, points) => points.length

/-- The results at one point; only in the first run the independent vector grows. -/
def savePoint (a : ℕ) (s : State V) (j : ℕ) : State V :=
  let data := match S.indep a with
    | none => s.data
    | some (f, points) => s.data.addTo f (if s.runs a = 1 then points[j]? else none)
  { s with data := (S.vars a).foldl (fun d n =>
      d.saveVariable (A.object a).name n (S.result a s.env n j) (S.indepName a)) data }

/-- All points of an analysis, as in `acsolver::solve`. -/
def solveInnermost (a : ℕ) (s : State V) : State V :=
  (List.range (S.points a)).foldl (savePoint S a) { s with runs := update s.runs a (s.runs a + 1) }

/-- Follows the first children down to the last sweep. -/
def findLastOrderChildren (object : ℕ → Analysis) : ℕ → ℕ → Option (List ℕ)
  | 0, _ => none
  | fuel + 1, a =>
    match children a with
    | none => none
    | some alist =>
      match alist with
      | [] => some []
      | child :: _ =>
        if (object child).type = .sweep then findLastOrderChildren object fuel child
        else some alist

/-- The children are initialized too, if there are any. -/
def initializeAnalysis : ℕ → (String → V) → ℕ → Option (String → V)
  | 0, _, _ => none
  | fuel + 1, env, a =>
    if (A.object a).type = .sweep then
      let env := match S.values a with
        | [] => env
        | v :: _ => update env (S.param a) v
      ((children a).getD []).foldlM (initializeAnalysis fuel) env
    else some env

def saveResults (a : ℕ) (s : State V) : State V :=
  { s with data := s.data.addTo (S.param a) (some (s.env (S.param a))) }

/-- The parameter of a sweep is assigned to the last order analyses. -/
def assignAll (A : Analyses) (lastorder : List ℕ) (p : String) (s : State V) : State V :=
  { s with data := lastorder.foldl (fun d dep => d.assignDependency (A.object dep).name p) s.data }

/-- The children of the sweep `a` at one of its values, each run by `solve`. -/
def solveChildren (solve : ℕ → State V → Option (State V)) (lastorder : Option (List ℕ)) (a : ℕ)
    (actions : List ℕ) (s : State V) : Option (State V) :=
  actions.foldlM (fun s b => do
    let s ← solve b s
    let lastorder ← lastorder
    return assignAll A lastorder (S.param a) s) s

def solvePoint (solve : ℕ → State V → Option (State V)) (lastorder : Option (List ℕ)) (a : ℕ)
    (actions : List ℕ) (s : State V) (v : V) : Option (State V) :=
  let s := { s with env := update s.env (S.param a) v }
  let s := if s.runs a = 1 then saveResults S a s else s
  solveChildren S solve lastorder a actions s

/-- One analysis. A sweep without children has no list to go through: there is
no result. -/
def solve : ℕ → ℕ → State V → Option (State V)
  | 0, _, _ => none
  | fuel + 1, a, s =>
    if (A.object a).type = .sweep then do
      let actions ← children a
      let lastorder := findLastOrderChildren children A.object (fuel + 1) a
      (S.values a).foldlM (solvePoint S (solve fuel) lastorder a actions)
        { s with runs := update s.runs a (s.runs a + 1) }
    else some (solveInnermost S a s)

def runAnalysis (fuel : ℕ) (env : String → V) : Option (Dataset V) := do
  let order ← orderAnalysis A.object fuel A.actions
  let env ← order.actions.foldlM (initializeAnalysis S order.children fuel) env
  let s ← order.actions.foldlM (fun s a => solve S order.children fuel a s) (.initial env)
  return s.data

end Run

/-! ## Rectangular results -/

section Rectangular

variable {A : Analyses} {V : Type}

/-- Every innermost analysis has its own variables and its own independent vector. -/
structure Setup.Separate (S : Setup A V) : Prop where
  vars : ∀ a ∈ A.actions, ∀ b ∈ A.actions, ∀ n, n ∈ S.vars a → n ∈ S.vars b → a = b
  indep : ∀ a ∈ A.actions, ∀ b ∈ A.actions, ∀ f, S.indepName a = some f → S.indepName b = some f →
    a = b
  param : ∀ a ∈ A.actions, ∀ b ∈ A.actions, (A.object a).type = .sweep →
    S.indepName b ≠ some (S.param a)

def Dataset.vector (d : Dataset V) (p : String) : List V := (d.dependencies p).getD []

def Variable.deplist (v : Variable V) : List String := v.dependencies.getD []

def Dataset.sizes (d : Dataset V) (v : Variable V) : List ℕ :=
  v.deplist.map fun p => (d.vector p).length

/-- The value at the place of `is` was saved by the analysis `x` while every swept
parameter the variable depends on had the value of its index, and at the point
of its index if `x` has points. -/
def SavedAt (S : Setup A V) (d : Dataset V) (x : ℕ) (n : String) (v : Variable V) (is : List ℕ) :
    Prop :=
  ∃ env j, v.values[Lib.Radix.position (d.sizes v) is]? = some (S.result x env n j) ∧
    ∀ (k : ℕ) p i, v.deplist[k]? = some p → is[k]? = some i →
      (∀ a ∈ A.actions, (A.object a).type = .sweep → S.param a = p →
        (d.vector p)[i]? = some (env p)) ∧
      (S.indepName x = some p → j = i)

/-- **Rectangular results**: a variable of an innermost analysis has as many values
as its dependency vectors say, fastest varying first. -/
def Rectangular (S : Setup A V) (d : Dataset V) : Prop :=
  ∀ n v, d.vars n = some v → ∃ x ∈ A.actions, n ∈ S.vars x ∧ v.origin = (A.object x).name ∧
    v.values.length = (d.sizes v).prod ∧
    ∀ is, Lib.Radix.Within (d.sizes v) is → SavedAt S d x n v is

def Analyses.OneParent (A : Analyses) : Prop := ∀ a b x, A.Under a x → A.Under b x → a = b

end Rectangular

end Qucs.Sweeps
