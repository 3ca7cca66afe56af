/-
# What an evaluation reads and leaves

* Quiet: an expression that calls no function with a memory
* assign: a list with values put into the equations of numbers
* solve_steady: a steady list is solved by evaluating it in order
* evaluateAll_steady: a steady list of quiet equations evaluates to the same results,
  whatever results it starts from

Between two evaluations of a list only numbers in it change, so it stays steady
(`assign_alike`) and its types stay the same (`applyTypes_assign`).
-/
import Qucs.Lib.StraightLine
import Qucs.Environment.Solver

namespace Qucs

open Environments Lib.StraightLine List Equation

variable {D σ τ : Type}

/-! ## Functions without a memory -/

namespace Node

/-- The expression calls the function `f`. -/
inductive Calls {K : Type} : Node K → String → Prop
  | here (f : String) (args : List (Node K)) : Calls (.application f args) f
  | arg {n : String} {args : List (Node K)} {a : Node K} {f : String} :
      a ∈ args → Calls a f → Calls (.application n args) f

/-- The expression calls no function that has a memory. -/
def Quiet {K : Type} (b : Node K) : Prop := ¬b.Calls "random" ∧ ¬b.Calls "srandom"

theorem Quiet.arg {K : Type} {n : String} {args : List (Node K)} (h : (application n args).Quiet)
    {a : Node K} (ha : a ∈ args) : a.Quiet :=
  ⟨fun hc => h.1 (.arg ha hc), fun hc => h.2 (.arg ha hc)⟩

section Value

variable (lib : Library D σ) (results : String → Option (Value D))

mutual

def value : Node (Value D) → Option (Value D)
  | .constant c => some c
  | .reference n => results n
  | .application n args => (valueArgs args).map (lib.eval n)

def valueArgs : List (Node (Value D)) → Option (List (Value D))
  | [] => some []
  | arg :: args => arg.value.bind fun v => (valueArgs args).map (v :: ·)

end

end Value

variable {lib : Library D σ}

mutual

/-- The value depends on the variables the expression refers to. -/
theorem value_congr {results results' : String → Option (Value D)} : ∀ b : Node (Value D),
    (∀ v, b.Refers v → results v = results' v) → b.value lib results = b.value lib results'
  | .constant c, _ => rfl
  | .reference n, h => h n (.here n)
  | .application n args, h => by
    rw [value, value, valueArgs_congr args fun a ha v hv => h v (.arg ha hv)]

theorem valueArgs_congr {results results' : String → Option (Value D)} :
    ∀ args : List (Node (Value D)),
      (∀ a ∈ args, ∀ v, a.Refers v → results v = results' v) →
      valueArgs lib results args = valueArgs lib results' args
  | [], _ => rfl
  | arg :: args, h => by
    rw [valueArgs, valueArgs, value_congr arg (h arg mem_cons_self),
      valueArgs_congr args fun a ha => h a (mem_cons_of_mem _ ha)]

end

variable [Zero D] [One D]

mutual

/-- A quiet expression has a value and leaves no trace. -/
theorem evaluate_quiet {results : String → Option (Value D)} : ∀ (b : Node (Value D))
    (r : Random σ), b.Quiet → b.evaluate lib results r = (b.value lib results, r)
  | .constant c, r, _ => rfl
  | .reference n, r, _ => rfl
  | .application n args, r, h => by
    have hrandom : n ≠ "random" := fun hn => h.1 (hn ▸ .here n args)
    have hsrandom : n ≠ "srandom" := fun hn => h.2 (hn ▸ .here n args)
    rw [evaluate, evaluateArgs_quiet args r fun a ha => h.arg ha, value]
    cases valueArgs lib results args with
    | none => rfl
    | some vs => simp [Library.apply, hrandom, hsrandom]

theorem evaluateArgs_quiet {results : String → Option (Value D)} :
    ∀ (args : List (Node (Value D))) (r : Random σ), (∀ a ∈ args, a.Quiet) →
      evaluateArgs lib results args r = (valueArgs lib results args, r)
  | [], r, _ => rfl
  | arg :: args, r, h => by
    rw [evaluateArgs, evaluate_quiet arg r (h arg mem_cons_self)]
    simp only [evaluateArgs_quiet args r fun a ha => h a (mem_cons_of_mem _ ha)]
    rw [valueArgs]

end

end Node

namespace Environments

/-! ## Evaluating a list -/

section EvaluateAll

variable [Zero D] [One D] {lib : Library D σ}

theorem evaluateAll_recollect (es : List (Equation (Value D))) : ∀ results (r : Random σ),
    evaluateAll lib (es.map Equation.recollect) results r = evaluateAll lib es results r := by
  induction es with
  | nil =>
    intro results r
    rfl
  | cons e es ih =>
    intro results r
    rw [map_cons, evaluateAll, evaluateAll]
    simp only [recollect, ih]

theorem evaluateAll_append (es ds : List (Equation (Value D))) : ∀ results (r : Random σ),
    evaluateAll lib (es ++ ds) results r =
      evaluateAll lib ds (evaluateAll lib es results r).1 (evaluateAll lib es results r).2 := by
  induction es with
  | nil =>
    intro results r
    rfl
  | cons e es ih =>
    intro results r
    rw [cons_append, evaluateAll, evaluateAll]
    split
    · exact ih _ _
    · exact ih _ _

theorem evaluateAll_unmarked {es : List (Equation (Value D))}
    (h : ∀ e ∈ es, e.evalPossible = false) : ∀ results (r : Random σ),
    evaluateAll lib es results r = (results, r) := by
  induction es with
  | nil =>
    intro results r
    rfl
  | cons e es ih =>
    intro results r
    rw [evaluateAll, if_neg (by simp [h e mem_cons_self])]
    exact ih (fun d hd => h d (mem_cons_of_mem _ hd)) results r

/-- Marked and quiet equations are a straight-line program. -/
theorem evaluateAll_quiet {es : List (Equation (Value D))}
    (hmark : ∀ e ∈ es, e.evalPossible) (hquiet : ∀ e ∈ es, e.body.Quiet) :
    ∀ results (r : Random σ), evaluateAll lib es results r =
      (run Equation.result (fun e s => e.body.value lib s) es results, r) := by
  induction es with
  | nil =>
    intro results r
    rfl
  | cons e es ih =>
    intro results r
    rw [evaluateAll, if_pos (hmark e mem_cons_self),
      Node.evaluate_quiet e.body r (hquiet e mem_cons_self)]
    exact ih (fun d hd => hmark d (mem_cons_of_mem _ hd))
      (fun d hd => hquiet d (mem_cons_of_mem _ hd)) _ r

end EvaluateAll

/-- The front of a steady list is an ordered program. -/
theorem ordered_front {lib : Library D σ} {front rest : List (Equation (Value D))}
    (h : Steady front rest) : Ordered Equation.result (fun e s => e.body.value lib s) front ∅ := by
  have tail : ∀ (after before : List (Equation (Value D))), front = before ++ after →
      Ordered result (fun e s => e.body.value lib s) after {v | ∃ d ∈ before, d.result = v} := by
    intro after
    induction after with
    | nil =>
      intro before _
      trivial
    | cons e after ih =>
      intro before hsplit
      constructor
      · intro s t hst
        exact Node.value_congr e.body fun v hv => hst v (h.ordered before e after hsplit v hv)
      · have hnext := ih (before ++ [e]) (by rw [hsplit]; simp)
        refine (congrArg (Ordered result _ after) ?_).mp hnext
        ext v
        simp only [Set.mem_ofPred_eq, mem_append, mem_singleton, Set.mem_insert_iff]
        constructor
        · rintro ⟨d, hd | rfl, rfl⟩
          · exact .inr ⟨d, hd, rfl⟩
          · exact .inl rfl
        · rintro (rfl | ⟨d, hd, rfl⟩)
          · exact ⟨e, .inr rfl, rfl⟩
          · exact ⟨d, .inl hd, rfl⟩
  have := tail front [] rfl
  simpa using this

/-! ## Parameters put into a list -/

/-- The equation with the value `own` gives its variable, if it is the equation
of a number. -/
def assign (own : String → Option D) (e : Equation (Value D)) : Equation (Value D) :=
  match own e.result, e.body with
  | some val, .constant (.double _) => { e with body := .constant (.double val) }
  | _, _ => e

theorem setDoubleAt_eq (ident : String) (val : D) (e : Equation (Value D)) :
    setDoubleAt ident val e = assign (fun n => if n = ident then some val else none) e := by
  unfold setDoubleAt assign
  by_cases h : e.result = ident
  · simp only [if_pos h]
    split <;> simp_all
  · simp only [if_neg h]

section

variable (own : String → Option D) (e : Equation (Value D))
include own e

/-- Either the equation stays as it is, or its variable is given and it is the
equation of a number. -/
theorem assign_cases :
    (assign own e = e ∧ (own e.result = none ∨ ∀ d, e.body ≠ .constant (.double d))) ∨
      ∃ val d, own e.result = some val ∧ e.body = .constant (.double d) ∧
        assign own e = { e with body := .constant (.double val) } := by
  unfold assign
  split
  · next val d hval hbody => exact .inr ⟨val, d, hval, hbody, rfl⟩
  · next hno =>
    refine .inl ⟨rfl, ?_⟩
    cases hown : own e.result with
    | none => exact .inl rfl
    | some val => exact .inr fun d hd => hno val d hown hd

theorem assign_result : (assign own e).result = e.result := by
  rcases assign_cases own e with ⟨h, -⟩ | ⟨val, d, -, -, h⟩
  · rw [h]
  · rw [h]

theorem assign_recollect : (assign own e).recollect = assign own e.recollect := by
  unfold assign recollect
  dsimp only
  split
  · next hbody => simp [hbody, Node.addDependencies]
  · rfl

end

theorem assign_congr {own own' : String → Option D} {e : Equation (Value D)}
    (h : own e.result = own' e.result) : assign own e = assign own' e := by
  unfold assign
  rw [h]

theorem assign_of_body {own : String → Option D} {e : Equation (Value D)}
    (h : ∀ d, e.body ≠ .constant (.double d)) : assign own e = e := by
  rcases assign_cases own e with ⟨heq, -⟩ | ⟨_, d, -, hbody, -⟩
  · exact heq
  · exact absurd hbody (h d)

theorem assign_assign (own own' : String → Option D) (e : Equation (Value D)) :
    assign own' (assign own e) = assign (fun n => (own' n).or (own n)) e := by
  rcases assign_cases own e with ⟨h, hown | hbody⟩ | ⟨val, d, hval, hbody, h⟩
  · rw [h]
    exact assign_congr (by simp [hown])
  · rw [h, assign_of_body hbody, assign_of_body hbody]
  · rw [h]
    unfold assign
    simp only [hbody]
    cases hown' : own' e.result with
    | some val' => simp
    | none => simp [hval]

theorem assign_alike (own : String → Option D) (e : Equation (Value D)) :
    Alike e (assign own e) := by
  rcases assign_cases own e with ⟨h, -⟩ | ⟨val, d, -, hbody, h⟩
  · rw [h]
    exact ⟨rfl, rfl, rfl, fun _ => Iff.rfl⟩
  · rw [h]
    refine ⟨rfl, rfl, rfl, ?_⟩
    intro v
    rw [hbody]
    constructor
    · intro hv
      cases hv
    · intro hv
      cases hv

theorem assign_quiet {own : String → Option D} {e : Equation (Value D)} (h : e.body.Quiet) :
    (assign own e).body.Quiet := by
  rcases assign_cases own e with ⟨heq, -⟩ | ⟨val, d, -, -, heq⟩
  · rw [heq]
    exact h
  · rw [heq]
    constructor
    · intro hc
      cases hc
    · intro hc
      cases hc

variable (lib : Library D σ)

theorem assign_evalType (types : String → Tag) (own : String → Option D)
    (e : Equation (Value D)) :
    (assign own e).body.evalType lib types = e.body.evalType lib types := by
  rcases assign_cases own e with ⟨h, -⟩ | ⟨val, d, -, hbody, h⟩
  · rw [h]
  · rw [h, hbody]
    rfl

theorem variableType_assign (own : String → Option D)
    (es : List (Equation (Value D))) (depth : ℕ) :
    variableType lib (es.map (assign own)) depth = variableType lib es depth := by
  induction depth with
  | zero => rfl
  | succ depth ih =>
    funext n
    have hfind : findEquation (es.map (assign own)) n =
        (findEquation es n).map (assign own) := by
      unfold findEquation
      rw [find?_map]
      congr 2
      funext e
      simp [assign_result]
    rw [variableType, variableType, hfind, ih]
    cases findEquation es n with
    | none => rfl
    | some e => exact assign_evalType lib _ own e

theorem applyTypes_assign (own : String → Option D)
    (es : List (Equation (Value D))) :
    applyTypes lib (es.map (assign own)) = applyTypes lib es := by
  unfold applyTypes
  have hmark : evalPossible ∘ assign own = evalPossible := by
    funext e
    exact (assign_alike own e).mark.symm
  rw [takeWhile_map, hmark, countP_map, length_map, variableType_assign]
  congr 1
  funext e
  simp [assign_evalType]

theorem applyTypes_recollect (es : List (Equation (Value D))) :
    applyTypes lib (es.map Equation.recollect) = applyTypes lib es := by
  have htypes : ∀ depth, variableType lib (es.map recollect) depth =
      variableType lib es depth := by
    intro depth
    induction depth with
    | zero => rfl
    | succ depth ih =>
      funext n
      have hfind : findEquation (es.map recollect) n =
          (findEquation es n).map recollect := by
        unfold findEquation
        rw [find?_map]
        rfl
      rw [variableType, variableType, hfind, ih]
      cases findEquation es n <;> rfl
  unfold applyTypes
  rw [takeWhile_map, countP_map, length_map, htypes]
  rfl

/-! ## Solving a steady list -/

theorem forall₂_of_recollect {K : Type} {es ds : List (Equation K)}
    (h : es.map Equation.recollect = ds.map Equation.recollect) : List.Forall₂ Alike es ds := by
  induction es generalizing ds with
  | nil =>
    cases ds with
    | nil => exact .nil
    | cons d ds => simp at h
  | cons e es ih =>
    cases ds with
    | nil => simp at h
    | cons d ds =>
      obtain ⟨hed, hrest⟩ := cons.inj h
      exact .cons (Alike.of_recollect hed) (ih hrest)

section Solve

variable [Zero D] [One D] {lib : Library D σ} {front rest : List (Equation (Value D))}
  (h : Steady front rest)

include h

/-- **Solving a steady list**: no error, and the equations are evaluated in
order. -/
theorem solve_steady (htypes : applyTypes lib (front ++ rest) = 0) {c : Checkee D}
    (hc : c.equations.map Equation.recollect = (front ++ rest).map Equation.recollect) (n : ℕ)
    (r : Random σ) :
    ∃ es, solve lib (n + 1) c r =
        some (false, ⟨es, (evaluateAll lib (front ++ rest) c.results r).1⟩,
          (evaluateAll lib (front ++ rest) c.results r).2) ∧
      es.map Equation.recollect = (front ++ rest).map Equation.recollect := by
  rw [map_append] at hc
  obtain ⟨f, g, heqs, hf, hg⟩ := map_eq_append_iff.mp hc
  obtain ⟨f', g', hrun, hf', hg'⟩ := (h.alike (forall₂_of_recollect hf.symm)
    (forall₂_of_recollect hg.symm)).recheck n
  have hsame : (f' ++ g').map recollect = (front ++ rest).map recollect := by
    rw [map_append, map_append, hf', hg', hf, hg]
  have htypes' : applyTypes lib (f' ++ g') = 0 := by
    rw [← applyTypes_recollect, hsame, applyTypes_recollect, htypes]
  have heval : evaluateAll lib (f' ++ g') c.results r =
      evaluateAll lib (front ++ rest) c.results r := by
    rw [← evaluateAll_recollect, hsame, evaluateAll_recollect]
  refine ⟨f' ++ g', ?_, hsame⟩
  unfold solve check
  simp [heqs, hrun, htypes', heval]

/-- **Nothing is left of earlier results**: what a quiet list evaluates to does
not depend on them. -/
theorem evaluateAll_steady (hquiet : ∀ e ∈ front, e.body.Quiet)
    {results : String → Option (Value D)}
    (hresults : ∀ n, (∀ e ∈ front, e.result ≠ n) → results n = none) (r r₀ : Random σ) :
    evaluateAll lib (front ++ rest) results r =
      ((evaluateAll lib (front ++ rest) (fun _ => none) r₀).1, r) := by
  have hall : ∀ (results : String → Option (Value D)) (r : Random σ),
      evaluateAll lib (front ++ rest) results r =
        (run result (fun e s => e.body.value lib s) front results, r) := by
    intro results r
    rw [evaluateAll_append, evaluateAll_quiet h.front_marked hquiet,
      evaluateAll_unmarked h.rest_unmarked]
  rw [hall, hall]
  congr 1
  funext n
  by_cases hn : n ∈ front.map result
  · exact run_agree (ordered_front h) (fun x hx => hx.elim) n (.inr hn)
  · show run _ _ front results n = run _ _ front (fun _ => none) n
    rw [run_frame hn, run_frame hn]
    exact hresults n fun e he hres => hn (mem_map.mpr ⟨e, he, hres⟩)

theorem evaluateAll_frame {results : String → Option (Value D)} {n : String}
    (hn : ∀ e ∈ front, e.result ≠ n) (r : Random σ) :
    (evaluateAll lib (front ++ rest) results r).1 n = results n := by
  have hfront : ∀ (es : List (Equation (Value D))) (results : String → Option (Value D))
      (r : Random σ), (∀ e ∈ es, e.result ≠ n) →
      (evaluateAll lib es results r).1 n = results n := by
    intro es
    induction es with
    | nil =>
      intro results r _
      rfl
    | cons e es ih =>
      intro results r hes
      rw [evaluateAll]
      split
      · rw [ih _ _ fun d hd => hes d (mem_cons_of_mem _ hd)]
        exact Function.update_of_ne (hes e mem_cons_self).symm _ _
      · exact ih _ _ fun d hd => hes d (mem_cons_of_mem _ hd)
  rw [evaluateAll_append, evaluateAll_unmarked h.rest_unmarked]
  exact hfront front results r hn

end Solve

end Environments

end Qucs
