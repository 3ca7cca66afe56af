/-
# Equations solved along the tree of environments

`environment.cpp`. Every subcircuit instance has an environment
of its own, with its variables; but all instances of one type share the equation
checker and solver of the type. `runSolver` goes down the tree: it writes the
parameters of an instance into the shared equations, solves them, and reads the
results back into the variables of the instance.

* constant, TAG_…: `Value`, `Tag`
* node::evaluate, evaluate::rand, …: `Node.evaluate`, `Library.apply`
* checker::check, ::applyTypes: `check`, `applyTypes`
* solver::evaluate, ::solve: `evaluateAll`, `solve`
* environment::passConstants, …: `passConstants`, `updateReferences`,
  `fetchConstants`
* checker_subcircuit_args: `Template.assignments`, `Template.vars`
* checker_copy_subcircuits: `instantiate`

A checker is named by the type whose equations it holds, so `Shared` is a
function of types. The result of an equation is kept under its name: names are
unique in a list the checker has accepted. In the source the result of a
constant is the constant itself, so that it changes with `setDouble`; nothing is
read between `setDouble` and the next evaluation.

Functions are a parameter (`Library`), except for the two that have a memory.
Left out are the functions that put a generated vector into the solver's list;
a `ddx` stands for the tree that `application::evalType` derives for it.
-/
import Qucs.Equation.Recheck

namespace Qucs

namespace Environments

/-! ## Values -/

/-- The type of a constant. -/
inductive Tag where
  | unknown | boolean | double | complex | vector | matrix | matvec | char | string | range
  deriving DecidableEq, Repr

/-- A constant. A complex number is a pair, a matrix the list of its columns. -/
inductive Value (D : Type) where
  | boolean (b : Bool)
  | double (d : D)
  | complex (c : D × D)
  | vector (v : List (D × D))
  | matrix (m : List (List (D × D)))
  | matvec (mv : List (List (List (D × D))))
  | char (chr : Char)
  | string (s : String)
  | range (il : Char) (l h : D) (ih : Char)
  deriving DecidableEq, Repr

variable {D σ τ : Type}

def Value.tag : Value D → Tag
  | .boolean _ => .boolean
  | .double _ => .double
  | .complex _ => .complex
  | .vector _ => .vector
  | .matrix _ => .matrix
  | .matvec _ => .matvec
  | .char _ => .char
  | .string _ => .string
  | .range .. => .range

section Results

variable [Zero D] [One D]

def getResultDouble : Option (Value D) → D
  | some (.double d) => d
  | some (.complex c) => c.1
  | some (.boolean b) => if b then 1 else 0
  | _ => 0

def getResultVector : Option (Value D) → List (D × D)
  | some (.matrix m) => m.flatten
  | some (.vector v) => v
  | some (.double d) => [(d, 0)]
  | some (.complex c) => [c]
  | some (.boolean b) => [(if b then 1 else 0, 0)]
  | _ => []

end Results

/-! ## Functions -/

/-- The functions equations can call. `retval` is the table of result types,
unknown if there is no function for these arguments; `srand` and `rand` are the
generator of the C library, the latter scaled by `RAND_MAX`. -/
structure Library (D σ : Type) where
  retval : String → List Tag → Tag
  eval : String → List (Value D) → Value D
  srand : D → σ
  rand : σ → D × σ

/-- What functions remember: the state of the generator, and whether it has been
seeded. -/
structure Random (σ : Type) where
  seed : σ
  done : Bool
  deriving DecidableEq, Repr

/-- A call. Only the first `srandom` of the process seeds the generator. -/
def Library.apply [Zero D] [One D] (lib : Library D σ) (n : String) (args : List (Value D))
    (r : Random σ) : Value D × Random σ :=
  if n = "random" then
    (.double (lib.rand r.seed).1, { r with seed := (lib.rand r.seed).2 })
  else if n = "srandom" then
    match args with
    | [.double d] => if r.done then (.double 0, r) else (.double 1, ⟨lib.srand d, true⟩)
    | _ => (lib.eval n args, r)
  else (lib.eval n args, r)

end Environments

open Environments

variable {D σ τ : Type}

namespace Node

section Evaluate

variable [Zero D] [One D] (lib : Library D σ) (results : String → Option (Value D))

mutual

/-- `evaluate` of the three node classes. All arguments are evaluated, even if
one of them has no result. -/
def evaluate : Node (Value D) → Random σ → Option (Value D) × Random σ
  | .constant c, r => (some c, r)
  | .reference n, r => (results n, r)
  | .application n args, r =>
    let (vs, r) := evaluateArgs args r
    match vs with
    | none => (none, r)
    | some vs =>
      let (v, r) := lib.apply n vs r
      (some v, r)

/-- The argument loop of `application::evaluate`. -/
def evaluateArgs : List (Node (Value D)) → Random σ → Option (List (Value D)) × Random σ
  | [], r => (some [], r)
  | arg :: args, r =>
    let (v, r) := arg.evaluate r
    let (vs, r) := evaluateArgs args r
    (v.bind fun v => vs.map (v :: ·), r)

end

end Evaluate

section Types

variable (lib : Library D σ) (types : String → Tag)

mutual

/-- `evalType` of the three node classes, given the types of the variables. -/
def evalType : Node (Value D) → Tag
  | .constant c => c.tag
  | .reference n => types n
  | .application n args => lib.retval n (evalTypeArgs args)

def evalTypeArgs : List (Node (Value D)) → List Tag
  | [] => []
  | arg :: args => arg.evalType :: evalTypeArgs args

end

end Types

end Node

namespace Environments

/-! ## Checker and solver -/

/-- The type of a variable: `reference::evalType` goes to the equation that
defines it, at most `depth` times. -/
def variableType (lib : Library D σ) (es : List (Equation (Value D))) : ℕ → String → Tag
  | 0, _ => .unknown
  | depth + 1, n =>
    match findEquation es n with
    | none => .unknown
    | some e => e.body.evalType lib (variableType lib es depth)

/-- The errors of `checker::applyTypes`, which stops at the first equation that
is not marked. -/
def applyTypes (lib : Library D σ) (es : List (Equation (Value D))) : ℕ :=
  (es.takeWhile Equation.evalPossible).countP fun e =>
    e.body.evalType lib (variableType lib es es.length) == .unknown

/-- `checker::check` as `runSolver` calls it: undefined variables are no errors,
duplicates and exports have been dealt with by the first check. -/
def check (lib : Library D σ) (fuel : ℕ) (es : List (Equation (Value D))) :
    Option (List (Equation (Value D)) × ℕ) := do
  let (es, errors) ← recheck fuel es
  some (es, errors + applyTypes lib es)

structure Checkee (D : Type) where
  equations : List (Equation (Value D))
  results : String → Option (Value D)

section Solve

variable [Zero D] [One D] (lib : Library D σ)

/-- `solver::evaluate`. -/
def evaluateAll : List (Equation (Value D)) → (String → Option (Value D)) → Random σ →
    (String → Option (Value D)) × Random σ
  | [], results, r => (results, r)
  | e :: es, results, r =>
    if e.evalPossible then
      let (v, r) := e.body.evaluate lib results r
      evaluateAll es (Function.update results e.result v) r
    else evaluateAll es results r

/-- `solver::solve` without a dataset, and whether it failed. After an error the
solver still points at the equation that was the first one before the check, and
what has been moved before that one is lost. -/
def solve (fuel : ℕ) (c : Checkee D) (r : Random σ) :
    Option (Bool × Checkee D × Random σ) := do
  let (es, errors) ← check lib fuel c.equations
  if errors ≠ 0 then
    let es := match c.equations with
      | [] => []
      | first :: _ => es.dropWhile fun e => e.result != first.result
    some (true, { c with equations := es }, r)
  else
    let (results, r) := evaluateAll lib es c.results r
    some (false, ⟨es, results⟩, r)

end Solve

/-- What `checker::setDouble` does to one equation. -/
def setDoubleAt (ident : String) (val : D) (e : Equation (Value D)) : Equation (Value D) :=
  if e.result = ident then
    match e.body with
    | .constant (.double _) => { e with body := .constant (.double val) }
    | _ => e
  else e

/-- A number is written into the equations. -/
def Checkee.setDouble (c : Checkee D) (ident : String) (val : D) : Checkee D :=
  { c with equations := c.equations.map (setDoubleAt ident val) }

/-- A result as a number. -/
def Checkee.getDouble [Zero D] [One D] (c : Checkee D) (ident : String) : D :=
  getResultDouble (c.results ident)

def Checkee.getVector [Zero D] [One D] (c : Checkee D) (ident : String) : List (D × D) :=
  getResultVector (c.results ident)

/-! ## Environments -/

/-- What a variable of an environment holds: a constant, or a reference to a
variable of the environment above with the value it had there. -/
inductive Content (D : Type) where
  | constant (c : Value D)
  | reference (n : String) (result : D)
  deriving DecidableEq, Repr

structure Variable (D : Type) where
  name : String
  content : Content D
  pass : Bool
  deriving DecidableEq, Repr

/-- An environment: the type whose checker and solver it uses, its variables and
its children. -/
inductive Environment (τ D : Type) where
  | mk (type : τ) (vars : List (Variable D)) (children : List (Environment τ D))

/-- What all environments share: one checker for each type, and what functions
remember. -/
structure Shared (τ D σ : Type) where
  checkees : τ → Checkee D
  random : Random σ

def Shared.set [DecidableEq τ] (s : Shared τ D σ) (t : τ) (c : Checkee D) : Shared τ D σ :=
  { s with checkees := Function.update s.checkees t c }

@[simp] theorem Shared.set_self [DecidableEq τ] (s : Shared τ D σ) (t : τ) (c : Checkee D) :
    (s.set t c).checkees t = c := Function.update_self _ _ _

theorem Shared.set_of_ne [DecidableEq τ] (s : Shared τ D σ) {t t' : τ} (h : t' ≠ t)
    (c : Checkee D) : (s.set t c).checkees t' = s.checkees t' := Function.update_of_ne h _ _

/-- Values are written into the shared equations. -/
def passConstants (vars : List (Variable D)) (c : Checkee D) : Checkee D :=
  vars.foldl (fun c v =>
    match v.pass, v.content with
    | true, .constant (.double d) => c.setDouble v.name d
    | _, _ => c) c

section Solver

variable [Zero D] [One D]

/-- The loop body of `environment::fetchConstants`. -/
def fetchConstant (c : Checkee D) (v : Variable D) : Variable D :=
  match v.content with
  | .constant (.double _) => { v with content := .constant (.double (c.getDouble v.name)) }
  | .constant (.vector _) => { v with content := .constant (.vector (c.getVector v.name)) }
  | _ => v

/-- Results are read back into the variables. -/
def fetchConstants (c : Checkee D) (vars : List (Variable D)) : List (Variable D) :=
  vars.map (fetchConstant c)

/-- The reference with its value in the environment above. -/
def updateReference (up : Checkee D) (v : Variable D) : Variable D :=
  match v.content with
  | .reference n _ => { v with content := .reference n (up.getDouble n) }
  | _ => v

/-- `environment::updateReferences`: the variables, and the checker with the
values put into it. -/
def updateReferences (up : Checkee D) (vars : List (Variable D)) (c : Checkee D) :
    List (Variable D) × Checkee D :=
  (vars.map (updateReference up),
    vars.foldl (fun c v =>
      match v.content with
      | .reference n _ => c.setDouble v.name (up.getDouble n)
      | _ => c) c)

variable [DecidableEq τ] (lib : Library D σ) (fuel : ℕ)

def equationSolver (t : τ) (s : Shared τ D σ) : Option (Bool × Shared τ D σ) := do
  let (failed, c, r) ← solve lib fuel (s.checkees t) s.random
  some (failed, { s.set t c with random := r })

/-- The loop of `environment::runSolver` over the children of an environment of
type `up`, with their own calls of `runSolver`. -/
def runChildren (up : τ) : List (Environment τ D) → Shared τ D σ →
    Option (Bool × List (Environment τ D) × Shared τ D σ)
  | [], s => some (false, [], s)
  | .mk t vars children :: rest, s => do
    -- pass constants and references to the solver
    let c := passConstants vars (s.checkees t)
    let (vars, c) := updateReferences (s.checkees up) vars c
    -- actually run the solver
    let (failed, s) ← equationSolver lib fuel t (s.set t c)
    let vars := fetchConstants (s.checkees t) vars
    let (failed', children, s) ← runChildren t children s
    let (failed'', rest, s) ← runChildren up rest s
    some (failed || failed' || failed'', .mk t vars children :: rest, s)

/-- `environment::runSolver`: whether it failed, and everything afterwards. -/
def runSolver : Environment τ D → Shared τ D σ →
    Option (Bool × Environment τ D × Shared τ D σ)
  | .mk t vars children, s => do
    let (failed, s) ← equationSolver lib fuel t s
    let vars := fetchConstants (s.checkees t) vars
    let (failed', children, s) ← runChildren lib fuel t children s
    some (failed || failed', .mk t vars children, s)

end Solver

/-! ## Instances -/

/-- A subcircuit type: its parameters with their defaults, its equations, and the
further variables its elements use, each with the constant it starts with. -/
structure Template (D : Type) where
  parameters : List (String × D)
  equations : List (Assignment (Value D))
  constants : List (String × Value D)

/-- The equations as `checker_subcircuit_args` leaves them: one for each
parameter, put at the head. -/
def Template.assignments (T : Template D) : List (Assignment (Value D)) :=
  T.parameters.reverse.map (fun p => ⟨p.1, .constant (.double p.2)⟩) ++ T.equations

/-- The environment of the type. A new variable is put at the head, and only
parameters are passed to the solver. -/
def Template.vars (T : Template D) : List (Variable D) :=
  T.constants.reverse.map (fun p => ⟨p.1, .constant p.2, false⟩) ++
    T.parameters.reverse.map fun p => ⟨p.1, .constant (.double p.2), true⟩

/-- A property of an instance: a number, or a variable of the environment above. -/
inductive Given (D : Type) where
  | value (d : D)
  | ident (n : String)
  deriving DecidableEq, Repr

/-- Change what the first variable of that name holds. -/
def setVariable (ident : String) (f : Content D → Content D) :
    List (Variable D) → List (Variable D)
  | [] => []
  | v :: vars =>
    if v.name = ident then { v with content := f v.content } :: vars
    else v :: setVariable ident f vars

/-- What `setDoubleConstant` and `setDoubleReference` make of a variable. -/
def Given.apply [Zero D] : Given D → Content D → Content D
  | .value d, .constant (.double _) => .constant (.double d)
  | .value _, content => content
  | .ident n, .constant _ => .reference n 0
  | .ident n, .reference _ result => .reference n result

/-- The variables of an instance: a copy of the type's, which reverses the list,
with the properties of the instance put in. -/
def instantiate [Zero D] (T : Template D) (pairs : List (String × Given D)) : List (Variable D) :=
  pairs.foldl (fun vars p => setVariable p.1 p.2.apply vars) T.vars.reverse

/-- A tree of instances, with the properties of each. -/
inductive Instance (τ D : Type) where
  | mk (type : τ) (pairs : List (String × Given D)) (children : List (Instance τ D))

def environments [Zero D] (templates : τ → Template D) :
    List (Instance τ D) → List (Environment τ D)
  | [] => []
  | .mk t pairs children :: rest =>
    .mk t (instantiate (templates t) pairs) (environments templates children) ::
      environments templates rest

end Environments

end Qucs
