/-
# The recursive passes of the netlist checker

`netlist_checker` runs over the definition lists of a parsed netlist, valid or
not, and counts errors. Most passes only loop over a list. Those that recurse
are here, with what connects them. The global flag `checker_sub_cycles` is the second
component that `validateSubCycles` returns.

Errors do not stop the checker: the counting pass runs on netlists with cyclic
subcircuits, and only the flag keeps it from descending into them.

A recursion that is too deep for its fuel is `none`. The equation check of
each definition list, the other place where the checker recurses, is a
parameter, and so are the errors of the passes that only loop (`Checks`).
-/
import Qucs.Hierarchy.Subcircuits

namespace Qucs.Hierarchy

/-! ## Cyclic subcircuits -/

/-- The loop over the elements of a type. `deps` are the types on the way, and
those left there by a branch with errors; `checked` the types already tested in
this list. -/
def subCyclesLoop (net : Netlist) (recurse : Subcircuit → List String → Option (ℕ × List String)) :
    List Definition → ℕ → List String → List String → Option (ℕ × List String)
  | [], errors, deps, _ => some (errors, deps)
  | d :: ds, errors, deps, checked =>
    match (if d.isSub then d.typeRef else none) with
    | none => subCyclesLoop net recurse ds errors deps checked
    | some ident =>
      if ident ∈ checked then subCyclesLoop net recurse ds errors deps checked
      else
        match net.findSubcircuit ident with
        | none => subCyclesLoop net recurse ds (errors + 1) deps (checked ++ [ident])
        | some sub =>
          match recurse sub deps with
          | none => none
          | some (error, deps') =>
            -- no errors: the original dependencies are restored
            if error = 0 then subCyclesLoop net recurse ds errors deps (checked ++ [ident])
            else subCyclesLoop net recurse ds (errors + error) deps' (checked ++ [ident])

/-- The errors below a subcircuit type, and the dependencies afterwards. -/
def validateSubCycles (net : Netlist) :
    ℕ → Subcircuit → List String → Option (ℕ × List String)
  | 0, _, _ => none
  | fuel + 1, s, deps =>
    if s.instanceName ∈ deps then some (1, deps)
    else subCyclesLoop net (validateSubCycles net fuel) s.sub 0 (deps ++ [s.instanceName]) []

/-- One pass over a definition list: the errors and the flag. Every instance
with a type overwrites the flag. -/
def validateSubcircuits (net : Netlist) (fuel : ℕ) :
    List Definition → ℕ × ℕ → Option (ℕ × ℕ)
  | [], r => some r
  | d :: ds, (errors, flag) =>
    if d.isSub then
      match d.typeRef with
      | none => validateSubcircuits net fuel ds (errors + 1, flag)
      | some ident =>
        match net.findSubcircuit ident with
        | none => validateSubcircuits net fuel ds (errors + 1, flag)
        | some sub =>
          let errors := if d.nodes.length = sub.nodes.length then errors else errors + 1
          match validateSubCycles net fuel sub [] with
          | none => none
          | some (err, _) => validateSubcircuits net fuel ds (errors + err, err)
    else validateSubcircuits net fuel ds (errors, flag)

/-! ## Actions -/

/-- The instances that need a DC analysis; the flag keeps the recursion out of
subcircuits. -/
def countNonlinearities (net : Netlist) (flag : ℕ) : ℕ → List Definition → Option ℕ
  | 0, _ => none
  | fuel + 1, ds =>
    ds.foldlM (fun count d =>
      let count := if d.nonlinear then count + 1 else count
      if flag = 0 ∧ d.isSub then
        match net.getSubcircuit d with
        | some sub => (countNonlinearities net flag fuel sub.sub).map (count + ·)
        | none => some count
      else some count) 0

/-- The definitions of a type, or of any type, among the actions or not. -/
def countDefinitions (ds : List Definition) (type : Option String) (action : Bool) : ℕ :=
  ds.countP fun d => d.action == action && type.all (d.type == ·)

/-- The loop of `checker_validate_para_cycles` over the definitions. -/
def paraCyclesLoop (recurse : String → List String → Option ℕ) (inst : String) :
    List Definition → List String → Option ℕ
  | [], _ => some 0
  | d :: ds, deps =>
    if d.action ∧ d.instanceName = inst then
      if inst ∈ deps then some 1
      else
        match (if d.type = "SW" then d.findReference "Sim" else none) with
        | some sim => recurse sim (deps ++ [inst])
        | none => paraCyclesLoop recurse inst ds (deps ++ [inst])
    else paraCyclesLoop recurse inst ds deps

/-- The errors on the way along parameter sweeps. -/
def validateParaCycles (root : List Definition) : ℕ → String → List String → Option ℕ
  | 0, _, _ => none
  | fuel + 1, inst, deps => paraCyclesLoop (validateParaCycles root fuel) inst root deps

/-- The number of errors in all parameter sweeps. -/
def validatePara (fuel : ℕ) (root : List Definition) : Option ℕ :=
  root.foldlM (fun errors d =>
    if d.action ∧ d.type = "SW" then
      match d.findReference "Sim" with
      | none => some (errors + 1)
      | some sim =>
        let errors := if d.instanceName = sim then errors + 1 else errors
        let found := root.countP fun d => d.action && d.instanceName == sim
        let errors := if found = 1 then errors else errors + 1
        (validateParaCycles root fuel sim []).map (errors + ·)
    else some errors) 0

/-- The checks that depend on the analyses of the netlist. -/
def validateActions (net : Netlist) (fuel flag : ℕ) : Option ℕ := do
  let errors ←
    if countDefinitions net.root none true < 1 then some 1
    else do
      let sp := countDefinitions net.root (some "SP") true
      let ports := if 1 ≤ sp ∧ countDefinitions net.root (some "Pac") false < 1 then 1 else 0
      let a := sp + countDefinitions net.root (some "AC") true
      let c ← countNonlinearities net flag fuel net.root
      let n := countDefinitions net.root (some "DC") true
      let several := if 1 < n then 1 else 0
      let required := if 1 ≤ a ∧ 1 ≤ c ∧ n < 1 then 1 else 0
      some (ports + several + required)
  let sweeps ← validatePara fuel net.root
  some (errors + sweeps)

/-! ## The checker -/

/-- What the passes that are not modelled here contribute: the errors of the
equation check of the root and of each type, none if that check does not
return, and the errors of the passes that only loop. -/
structure Checks where
  rootEquations : Option ℕ
  subEquations : Subcircuit → Option ℕ
  others : ℕ

/-- The passes over the subcircuit types: definitions, then equations. -/
def checkSubcircuits (net : Netlist) (checks : Checks) (fuel : ℕ) :
    List Subcircuit → ℕ × ℕ → Option (ℕ × ℕ)
  | [], r => some r
  | s :: ss, r => do
    let r ← validateSubcircuits net fuel s.sub r
    let err ← checks.subEquations s
    checkSubcircuits net checks fuel ss (r.1 + err, r.2)

/-- The number of errors, and the flat netlist if there are none. -/
def netlistChecker (net : Netlist) (checks : Checks) (fuel : ℕ) :
    Option (ℕ × Option (List Copy)) := do
  -- the list of types itself holds no instances, so the root comes first
  let r ← validateSubcircuits net fuel net.root (0, 0)
  let err ← checks.rootEquations
  let r ← checkSubcircuits net checks fuel net.subcircuits (r.1 + err, r.2)
  let actions ← validateActions net fuel r.2
  let errors := r.1 + actions + checks.others
  if errors = 0 then
    let flat ← expandSubcircuits net fuel
    some (0, some flat)
  else some (errors, none)

end Qucs.Hierarchy
