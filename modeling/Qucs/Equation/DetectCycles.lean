/-
# What the cycle detection finds, and when it returns

`node::recurseDependencies` goes one level below an equation's own
dependencies and recurses further only once the equation's cycle flag is set.
The flag is set in two ways: the equation refers to itself, or one of its
dependencies is an equation already flagged. A cycle that is found without
the flag is reported, but neither flags the equation nor folds its
dependencies. After one pass of the loop an equation is therefore

* flagged, with its own name or a flagged equation among its dependencies
* reported and unchanged, with its own name among their dependencies
* clean otherwise, and both levels are folded into its dependencies

(`settle`), provided the recursion of the first kind returns. It returns
iff the frontier of dependencies, followed through unflagged equations only,
meets the equation again or dies out (`recurseDependencies_returns_iff`).

Two defects follow.

* The recursion need not return: after `a = a`, the equation `b = a + c` is
  flagged by `a` and then follows `c = c` for ever.
* A cycle need not be found: `a = b`, `b = c`, `c = d`, `d = a` in this order
  is accepted. What is found is `Sees`: the look-ahead descends to earlier
  equations as far as they go, and from there takes at most one more step.
-/
import Qucs.Lib.Walk
import Qucs.Equation.Checker

namespace Qucs

open Relation Lib.Walk List Option

variable {K : Type}

/-! ## The dependency graph -/

/-- `x → y`: an equation resulting in `x` refers to the defined variable `y`. -/
def DependsOn (as : List (Assignment K)) (x y : String) : Prop :=
  ∃ a ∈ as, a.result = x ∧ a.body.Refers y ∧ ∃ b ∈ as, b.result = y

/-- The dependency graph of the defined variables contains a directed cycle. -/
def Cyclic (as : List (Assignment K)) : Prop := ∃ x, TransGen (DependsOn as) x x

/-! ## The recursion, level by level -/

section Recursion

variable (equations : List (Equation K)) (eqn : Equation K)

/-- `w → x` as the recursion follows it: the first equation resulting in `w`
is not flagged and lists `x`. -/
abbrev Follows : String → String → Prop := Succ (childDependencies equations)

theorem mem_childDependencies {w x : String} : x ∈ childDependencies equations w ↔
    ∃ eqn, findEquation equations w = some eqn ∧ eqn.cycle = false ∧ x ∈ eqn.dependencies := by
  unfold childDependencies
  cases findEquation equations w with
  | none => simp
  | some eqn => simp [mem_ite_nil_right]

theorem childDependencies_source (w x : String) (h : x ∈ childDependencies equations w) :
    w ∈ equations.map Equation.result := by
  obtain ⟨eqn, hfind, -⟩ := (mem_childDependencies equations).mp h
  exact mem_map.mpr ⟨eqn, findEquation_eq_some hfind⟩

variable {equations}
variable {result : String}

variable {deps : List String}

theorem recurseDependencies_of_mem (h : result ∈ deps) (n : Nat) (cycle : Bool) :
    recurseDependencies equations result (n + 1) cycle deps = some (deps, true) := by
  rw [recurseDependencies, if_pos h]

/-- Without a flag there is no recursion: two levels are returned. -/
theorem recurseDependencies_plain (h : result ∉ deps)
    (hc : deps.any (childCyclic equations) = false) (n : Nat) :
    recurseDependencies equations result (n + 1) false deps =
      some (deps ++ deps.flatMap (childDependencies equations), false) := by
  rw [recurseDependencies, if_neg h, visitChildren_eq]
  simp [hc]

variable {cycle : Bool}

/-- With the flag set, the recursion is on the next frontier unless that is
empty. -/
theorem recurseDependencies_step (h : result ∉ deps)
    (hc : (cycle || deps.any (childCyclic equations))) (n : Nat) :
    recurseDependencies equations result (n + 1) cycle deps =
      if deps.flatMap (childDependencies equations) = [] then some (deps, true)
      else (recurseDependencies equations result n true
        (deps.flatMap (childDependencies equations))).map fun r => (deps ++ r.1, r.2) := by
  rw [recurseDependencies, if_neg h, visitChildren_eq]
  simp only [hc, nil_append, true_and, ne_eq, ite_not]
  by_cases hnil : deps.flatMap (childDependencies equations) = []
  · simp [hnil]
  · rw [if_neg hnil, if_neg hnil]
    cases recurseDependencies equations result n true
        (deps.flatMap (childDependencies equations)) with
    | none => rfl
    | some r => rfl

theorem recurseDependencies_mono {n m : Nat} (hnm : n ≤ m)
    {r : List String × Bool} (h : recurseDependencies equations result n cycle deps = some r) :
    recurseDependencies equations result m cycle deps = some r := by
  induction n generalizing m cycle deps r with
  | zero => exact absurd h (by simp [recurseDependencies])
  | succ n ih =>
    obtain ⟨m, rfl⟩ : ∃ k, m = k + 1 := ⟨m - 1, by omega⟩
    rw [recurseDependencies] at h ⊢
    split_ifs at h ⊢ with hmem
    · exact h
    dsimp only at h ⊢
    split_ifs at h ⊢ with hsub
    · split at h
      case h_1 => cases h
      case h_2 hr =>
        rw [ih (by omega) hr]
        exact h
    · exact h

/-- A flagged recursion that returns, returns with the flag set. -/
theorem recurseDependencies_flag {n : Nat}
    {r : List String × Bool} (hc : (cycle || deps.any (childCyclic equations)))
    (h : recurseDependencies equations result n cycle deps = some r) : r.2 := by
  induction n generalizing cycle deps r with
  | zero => exact absurd h (by simp [recurseDependencies])
  | succ n ih =>
    by_cases hmem : result ∈ deps
    · rw [recurseDependencies_of_mem hmem] at h
      exact (some.inj h) ▸ rfl
    · rw [recurseDependencies_step hmem hc] at h
      split at h
      · exact (some.inj h) ▸ rfl
      · obtain ⟨r', hr', rfl⟩ := map_eq_some_iff.mp h
        show r'.2
        exact ih (Bool.true_or _) hr'

/-- The flagged recursion returns iff some frontier contains the equation's
own name or is empty. -/
theorem recurseDependencies_frontier (hc : (cycle || deps.any (childCyclic equations))) :
    (∃ n r, recurseDependencies equations result n cycle deps = some r) ↔
      (∃ t, result ∈ frontier (childDependencies equations) t deps) ∨
        ∃ t, frontier (childDependencies equations) t deps = [] := by
  rw [← exists_or]
  constructor
  · rintro ⟨n, r, h⟩
    induction n generalizing cycle deps r with
    | zero => exact absurd h (by simp [recurseDependencies])
    | succ n ih =>
      by_cases hmem : result ∈ deps
      · exact ⟨0, Or.inl hmem⟩
      · rw [recurseDependencies_step hmem hc] at h
        by_cases hnil : deps.flatMap (childDependencies equations) = []
        · exact ⟨1, Or.inr hnil⟩
        · rw [if_neg hnil] at h
          obtain ⟨r', hr', -⟩ := map_eq_some_iff.mp h
          obtain ⟨t, ht⟩ := ih (Bool.true_or _) r' hr'
          exact ⟨t + 1, ht⟩
  · rintro ⟨t, h⟩
    induction t generalizing deps cycle with
    | zero =>
      rcases h with hmem | hnil
      · exact ⟨1, _, recurseDependencies_of_mem hmem 0 cycle⟩
      · have hnil' : deps = [] := hnil
        subst hnil'
        exact ⟨1, _, by rw [recurseDependencies_step (by simp) hc]; simp; rfl⟩
    | succ t ih =>
      by_cases hmem : result ∈ deps
      · exact ⟨1, _, recurseDependencies_of_mem hmem 0 cycle⟩
      · obtain ⟨n, r, hr⟩ := ih (Bool.true_or _) h
        refine ⟨n + 1, ?_⟩
        rw [recurseDependencies_step hmem hc]
        by_cases hnil : deps.flatMap (childDependencies equations) = []
        · exact ⟨_, if_pos hnil⟩
        · rw [if_neg hnil, hr]
          exact ⟨_, rfl⟩

end Recursion

/-! ## One pass of the loop -/

variable (equations : List (Equation K)) (eqn : Equation K)

/-- The recursion for `eqn` ends: with a flagged equation among the
dependencies, following the dependencies through unflagged equations leads
back to `eqn`, or reaches no cycle at all. -/
def RecursionEnds : Prop :=
  eqn.dependencies.any (childCyclic equations) →
    (∃ v ∈ eqn.dependencies, ReflTransGen (Follows equations) v eqn.result) ∨
      ¬ ∃ v ∈ eqn.dependencies, ∃ x,
        ReflTransGen (Follows equations) v x ∧ TransGen (Follows equations) x x

/-- The first two levels of dependencies. -/
def lookAhead : List String :=
  eqn.dependencies ++ eqn.dependencies.flatMap (childDependencies equations)

/-- The pass sets the cycle flag: the equation refers to itself or to a
flagged equation. -/
def Flagged : Prop :=
  eqn.result ∈ eqn.dependencies ∨ eqn.dependencies.any (childCyclic equations)

def Reported : Prop :=
  Flagged equations eqn ∨ eqn.result ∈ lookAhead equations eqn

instance (equations : List (Equation K)) (eqn : Equation K) :
    Decidable (Flagged equations eqn) :=
  inferInstanceAs (Decidable (_ ∨ _))

instance (equations : List (Equation K)) (eqn : Equation K) :
    Decidable (Reported equations eqn) :=
  inferInstanceAs (Decidable (_ ∨ _))

/-- What one pass leaves of an equation, if it returns. -/
def settle : Equation K :=
  if Flagged equations eqn then { eqn with cycle := true }
  else if eqn.result ∈ lookAhead equations eqn then eqn
  else { eqn with dependencies := foldDependencies (lookAhead equations eqn) }

theorem settle_result :
    (settle equations eqn).result = eqn.result := by
  unfold settle
  split
  · rfl
  · split <;> rfl

variable {equations : List (Equation K)} {eqn : Equation K}

/-- **When the recursion returns.** -/
theorem recurseDependencies_returns_iff :
    (∃ n r, recurseDependencies equations eqn.result n false eqn.dependencies = some r) ↔
      RecursionEnds equations eqn := by
  by_cases hc : eqn.dependencies.any (childCyclic equations)
  · rw [recurseDependencies_frontier (by simpa using hc), exists_mem_frontier,
      exists_frontier_nil (childDependencies_source equations)]
    constructor
    · intro h _
      exact h
    · intro h
      exact h hc
  · constructor
    · intro _ h
      exact absurd h hc
    · intro _
      by_cases hmem : eqn.result ∈ eqn.dependencies
      · exact ⟨1, _, recurseDependencies_of_mem hmem 0 false⟩
      · exact ⟨1, _, recurseDependencies_plain hmem (by simpa using hc) 0⟩

variable {n : Nat}

/-- **What a returned recursion leads to**: the loop body leaves `settle`,
and counts an error iff the equation is `Reported`. -/
theorem recurseDependencies_settles (hcy : eqn.cycle = false) {deps : List String} {cycle : Bool}
    (h : recurseDependencies equations eqn.result n eqn.cycle eqn.dependencies =
      some (deps, cycle)) :
    (eqn.result ∈ deps ∨ cycle ↔ Reported equations eqn) ∧
      (Reported equations eqn → settle equations eqn = { eqn with cycle := cycle }) ∧
      (¬ Reported equations eqn → settle equations eqn =
        { eqn with dependencies := foldDependencies deps, cycle := cycle }) := by
  rw [hcy] at h
  by_cases hfl : Flagged equations eqn
  · have hcycle : cycle := by
      rcases hfl with hmem | hany
      · have h' := recurseDependencies_mono (Nat.le_succ n) h
        rw [recurseDependencies_of_mem hmem] at h'
        exact (congrArg Prod.snd (some.inj h')).symm
      · exact recurseDependencies_flag (by simpa using hany) h
    refine ⟨⟨fun _ => Or.inl hfl, fun _ => Or.inr hcycle⟩, ?_, ?_⟩
    · intro _
      rw [settle, if_pos hfl, hcycle]
    · intro hno
      exact absurd (Or.inl hfl) hno
  · obtain ⟨hmem, hany⟩ := not_or.mp hfl
    have h' := recurseDependencies_mono (Nat.le_succ n) h
    rw [recurseDependencies_plain hmem (by simpa using hany)] at h'
    obtain ⟨rfl, rfl⟩ := Prod.mk.inj (some.inj h')
    refine ⟨?_, ?_, ?_⟩
    · simp only [Bool.false_eq_true, or_false]
      constructor
      · exact Or.inr
      · rintro (h | h)
        · exact absurd h hfl
        · exact h
    · rintro (h | h)
      · exact absurd h hfl
      · rw [settle, if_neg hfl, if_pos h, ← hcy]
    · intro hno
      rw [settle, if_neg hfl, if_neg (fun h => hno (Or.inr h)), ← hcy]
      rfl

/-! ## The loop -/

/-- `Scan seen todo seen' todo'`: the loop of `detectCycles` standing at
`seen`, `todo` gets to stand at `seen'`, `todo'`. -/
inductive Scan : List (Equation K) → List (Equation K) → List (Equation K) →
    List (Equation K) → Prop
  | refl (seen todo : List (Equation K)) : Scan seen todo seen todo
  | pass {seen rest seen' todo' : List (Equation K)} {eqn : Equation K} :
      Scan (seen ++ [settle (seen ++ eqn :: rest) eqn]) rest seen' todo' →
      Scan seen (eqn :: rest) seen' todo'

variable {seen rest seen' todo' : List (Equation K)}

theorem scan_cons : Scan seen (eqn :: rest) seen' todo' ↔ (seen' = seen ∧ todo' = eqn :: rest) ∨
        Scan (seen ++ [settle (seen ++ eqn :: rest) eqn]) rest seen' todo' := by
  constructor
  · intro h
    cases h with
    | refl => exact Or.inl ⟨rfl, rfl⟩
    | pass h => exact Or.inr h
  · rintro (⟨rfl, rfl⟩ | h)
    · exact .refl _ _
    · exact .pass h

theorem scan_nil (h : Scan seen [] seen' todo') : seen' = seen ∧ todo' = [] := by
  cases h with
  | refl => exact ⟨rfl, rfl⟩

def ScanEnds (seen todo : List (Equation K)) : Prop :=
  ∀ seen' eqn rest, Scan seen todo seen' (eqn :: rest) → RecursionEnds (seen' ++ eqn :: rest) eqn

def ScanReports (seen todo : List (Equation K)) : Prop :=
  ∃ seen' eqn rest, Scan seen todo seen' (eqn :: rest) ∧ Reported (seen' ++ eqn :: rest) eqn

theorem scanEnds_nil (seen : List (Equation K)) : ScanEnds seen [] := by
  intro seen' eqn rest h
  exact absurd (scan_nil h).2 (cons_ne_nil eqn rest)

theorem scanEnds_cons : ScanEnds seen (eqn :: rest) ↔ RecursionEnds (seen ++ eqn :: rest) eqn ∧
      ScanEnds (seen ++ [settle (seen ++ eqn :: rest) eqn]) rest := by
  constructor
  · intro h
    exact ⟨h _ _ _ (.refl _ _), fun seen' e r hs => h seen' e r (.pass hs)⟩
  · rintro ⟨h₁, h₂⟩ seen' e r hs
    rcases scan_cons.mp hs with ⟨rfl, heq⟩ | hs
    · obtain ⟨rfl, rfl⟩ := cons.inj heq
      exact h₁
    · exact h₂ seen' e r hs

theorem not_scanReports_nil (seen : List (Equation K)) : ¬ ScanReports seen [] := by
  rintro ⟨seen', eqn, rest, h, -⟩
  exact absurd (scan_nil h).2 (cons_ne_nil eqn rest)

theorem scanReports_cons : ScanReports seen (eqn :: rest) ↔ Reported (seen ++ eqn :: rest) eqn ∨
      ScanReports (seen ++ [settle (seen ++ eqn :: rest) eqn]) rest := by
  constructor
  · rintro ⟨seen', e, r, hs, h⟩
    rcases scan_cons.mp hs with ⟨rfl, heq⟩ | hs
    · obtain ⟨rfl, rfl⟩ := cons.inj heq
      exact Or.inl h
    · exact Or.inr ⟨seen', e, r, hs, h⟩
  · rintro (h | ⟨seen', e, r, hs, h⟩)
    · exact ⟨_, _, _, .refl _ _, h⟩
    · exact ⟨seen', e, r, .pass hs, h⟩

/-- One pass of the loop, read off the recursion it starts. -/
theorem detectCyclesFrom_cons (hcy : eqn.cycle = false) {r : List String × Bool}
    (hr : recurseDependencies (seen ++ eqn :: rest) eqn.result n eqn.cycle eqn.dependencies =
      some r) :
    detectCyclesFrom n seen (eqn :: rest) =
      (detectCyclesFrom n (seen ++ [settle (seen ++ eqn :: rest) eqn]) rest).map
        fun p => (p.1, if Reported (seen ++ eqn :: rest) eqn then p.2 + 1 else p.2) := by
  obtain ⟨deps, cycle⟩ := r
  obtain ⟨hiff, hrep, hclean⟩ := recurseDependencies_settles hcy hr
  rw [detectCyclesFrom, hr]
  by_cases h : Reported (seen ++ eqn :: rest) eqn
  · simp only [if_pos (hiff.mpr h), hrep h, if_pos h]
  · simp only [if_neg (fun h' => h (hiff.mp h')), hclean h, if_neg h]
    simp

theorem detectCyclesFrom_mono {n m : Nat} (hnm : n ≤ m) : ∀ {todo seen : List (Equation K)}
    {p : List (Equation K) × Nat}, detectCyclesFrom n seen todo = some p →
      detectCyclesFrom m seen todo = some p
  | [], seen, p, h => h
  | eqn :: rest, seen, p, h => by
    rw [detectCyclesFrom] at h ⊢
    cases hr : recurseDependencies (seen ++ eqn :: rest) eqn.result n eqn.cycle
        eqn.dependencies with
    | none => simp [hr] at h
    | some r =>
      rw [recurseDependencies_mono hnm hr]
      simp only [hr] at h ⊢
      split at h
      · rename_i hrep
        obtain ⟨q, hq, hp⟩ := map_eq_some_iff.mp h
        rw [if_pos hrep, detectCyclesFrom_mono hnm hq]
        exact congrArg some hp
      · rename_i hrep
        rw [if_neg hrep]
        exact detectCyclesFrom_mono hnm h

/-- **The loop returns iff every recursion it starts ends**, and then counts
an error iff some pass emits a message. -/
theorem detectCyclesFrom_spec : ∀ (todo seen : List (Equation K)),
    (∀ e ∈ todo, e.cycle = false) →
    ((∃ n r, detectCyclesFrom n seen todo = some r) ↔ ScanEnds seen todo) ∧
      ∀ n r, detectCyclesFrom n seen todo = some r → (r.2 ≠ 0 ↔ ScanReports seen todo)
  | [], seen, _ => by
    constructor
    · exact ⟨fun _ => scanEnds_nil seen, fun _ => ⟨0, _, rfl⟩⟩
    · intro n r h
      rw [detectCyclesFrom] at h
      obtain rfl := some.inj h
      simp [not_scanReports_nil]
  | eqn :: rest, seen, hcy => by
    have hcy₀ := hcy eqn (mem_cons_self ..)
    obtain ⟨hret, herr⟩ := detectCyclesFrom_spec rest
      (seen ++ [settle (seen ++ eqn :: rest) eqn])
      (fun e he => hcy e (mem_cons_of_mem _ he))
    have hfirst : ∀ {n : Nat} {p : List (Equation K) × Nat},
        detectCyclesFrom n seen (eqn :: rest) = some p →
        ∃ r, recurseDependencies (seen ++ eqn :: rest) eqn.result n eqn.cycle
          eqn.dependencies = some r := by
      intro n p h
      cases hr : recurseDependencies (seen ++ eqn :: rest) eqn.result n eqn.cycle
          eqn.dependencies with
      | none => simp [detectCyclesFrom, hr] at h
      | some r => exact ⟨r, rfl⟩
    constructor
    · rw [scanEnds_cons, ← hret]
      constructor
      · rintro ⟨n, p, h⟩
        obtain ⟨r, hr⟩ := hfirst h
        rw [detectCyclesFrom_cons hcy₀ hr] at h
        obtain ⟨q, hq, -⟩ := map_eq_some_iff.mp h
        rw [hcy₀] at hr
        exact ⟨recurseDependencies_returns_iff.mp ⟨n, r, hr⟩, n, q, hq⟩
      · rintro ⟨hends, m, q, hq⟩
        obtain ⟨k, r, hr⟩ := recurseDependencies_returns_iff.mpr hends
        rw [← hcy₀] at hr
        refine ⟨max m k, ?_⟩
        rw [detectCyclesFrom_cons hcy₀ (recurseDependencies_mono (Nat.le_max_right m k) hr),
          detectCyclesFrom_mono (Nat.le_max_left m k) hq]
        exact ⟨_, rfl⟩
    · intro n p h
      obtain ⟨r, hr⟩ := hfirst h
      rw [detectCyclesFrom_cons hcy₀ hr] at h
      obtain ⟨q, hq, rfl⟩ := map_eq_some_iff.mp h
      rw [scanReports_cons, ← herr n q hq]
      by_cases hrep : Reported (seen ++ eqn :: rest) eqn
      · simp [hrep]
      · simp [hrep]

theorem collectDependencies_cycle (as : List (Assignment K)) :
    ∀ e ∈ collectDependencies as, e.cycle = false := by
  intro e he
  obtain ⟨a, -, rfl⟩ := mem_map.mp he
  rfl

/-- **Termination of the cycle detection.**  `detectCycles` returns iff each
recursion its loop starts ends: an equation with a flagged dependency is led
back to itself or into no cycle by the unflagged equations. -/
theorem detectCycles_returns_iff (as : List (Assignment K)) :
    (∃ n r, detectCycles n (collectDependencies as) = some r) ↔
      ∀ seen eqn rest, Scan [] (collectDependencies as) seen (eqn :: rest) →
        RecursionEnds (seen ++ eqn :: rest) eqn :=
  (detectCyclesFrom_spec _ [] (collectDependencies_cycle as)).1

theorem mem_of_follows {S : List String} (hS : ∀ w ∈ S, ∀ x ∈ childDependencies equations w, x ∈ S)
    {v x : String} (h : Relation.ReflTransGen (Follows equations) v x) (hv : v ∈ S) : x ∈ S := by
  induction h with
  | refl => exact hv
  | tail _ hstep ih => exact hS _ ih _ hstep

/-- `a = a`, `b = a + c`, `c = c`. -/
def selfReferring : List (Assignment Unit) :=
  [⟨"a", .reference "a"⟩,
   ⟨"b", .application "+" [.reference "a", .reference "c"]⟩,
   ⟨"c", .reference "c"⟩]

/-- On `a = a`, `b = a + c`, `c = c` no amount of fuel suffices. -/
theorem detectCycles_selfReferring :
    ¬ ∃ n r, detectCycles n (collectDependencies selfReferring) = some r := by
  intro h
  have hends := (detectCyclesFrom_spec _ [] (collectDependencies_cycle selfReferring)).1.mp h
  have hb := hends _ _ _ (.pass (.refl _ _)) (by decide)
  rcases hb with ⟨v, hv, hreach⟩ | hno
  · have hb := mem_of_follows (by decide) hreach hv
    exact absurd hb (by decide)
  · apply hno
    refine ⟨"c", ?_, "c", .refl, .single ?_⟩
    · show "c" ∈ ["c", "a"]
      decide
    · show "c" ∈ childDependencies _ "c"
      decide

/-! ## Which cycles are found -/

def firstIndex (names : List String) (w : String) : Option Nat :=
  names.findIdx? (fun n => n == w)

/-- `Sees as p v`: when the loop stands at position `p`, the variable `v` is
within its look-ahead. An earlier equation has been expanded, so it shows
all it sees; a later one shows the variables it refers to. -/
inductive Sees (as : List (Assignment K)) : Nat → String → Prop
  | direct {p : Nat} {a : Assignment K} {v : String} :
      as[p]? = some a → a.body.Refers v → Sees as p v
  | earlier {p q : Nat} {a : Assignment K} {w v : String} :
      as[p]? = some a → a.body.Refers w → firstIndex (as.map Assignment.result) w = some q →
      q < p → Sees as q v → Sees as p v
  | later {p q : Nat} {a b : Assignment K} {w v : String} :
      as[p]? = some a → a.body.Refers w → firstIndex (as.map Assignment.result) w = some q →
      p ≤ q → as[q]? = some b → b.body.Refers v → Sees as p v

def SeesItself (as : List (Assignment K)) : Prop :=
  ∃ p a, as[p]? = some a ∧ Sees as p a.result

variable {todo : List (Equation K)}

/-- A run lemma: what each pass preserves holds wherever the loop gets to. -/
theorem Scan.invariant {P : List (Equation K) → List (Equation K) → Prop}
    (hpass : ∀ seen eqn rest, P seen (eqn :: rest) →
      P (seen ++ [settle (seen ++ eqn :: rest) eqn]) rest)
    (h : Scan seen todo seen' todo') : P seen todo → P seen' todo' := by
  induction h with
  | refl => exact id
  | pass _ ih => exact fun hp => ih (hpass _ _ _ hp)

theorem Scan.snoc (h : Scan seen todo seen' (eqn :: rest)) :
    Scan seen todo (seen' ++ [settle (seen' ++ eqn :: rest) eqn]) rest := by
  generalize htodo : eqn :: rest = todo' at h
  induction h with
  | refl seen =>
    subst htodo
    exact .pass (.refl _ _)
  | pass _ ih => exact .pass (ih htodo)

theorem findEquation_index {root : List (Equation K)} {w : String} {c : Equation K} :
    findEquation root w = some c ↔
      ∃ q, firstIndex (root.map Equation.result) w = some q ∧ root[q]? = some c := by
  rw [← bind_eq_some_iff, firstIndex, findIdx?_map]
  exact Eq.congr_left find?_eq_bind_findIdx?_getElem?

variable {q : Nat}

/-- Where the loop stands: the equations to come are as collected, and the
results of all of them are unchanged. -/
structure Standing (as : List (Assignment K)) (seen todo : List (Equation K)) : Prop where
  todo_eq : todo = (collectDependencies as).drop seen.length
  results : (seen ++ todo).map Equation.result = as.map Assignment.result

theorem standing_start (as : List (Assignment K)) :
    Standing as [] (collectDependencies as) where
  todo_eq := rfl
  results := by
    simp only [List.nil_append, collectDependencies, List.map_map]
    rfl

variable {as : List (Assignment K)}

theorem Standing.pass (h : Standing as seen (eqn :: rest)) :
    Standing as (seen ++ [settle (seen ++ eqn :: rest) eqn]) rest where
  todo_eq := by
    have h' := congrArg tail h.todo_eq
    simpa using h'
  results := by
    have h' := h.results
    simpa [settle_result] using h'

theorem Standing.head (h : Standing as seen (eqn :: rest)) :
    ∃ a, as[seen.length]? = some a ∧ eqn = a.collectDependencies := by
  have h' := congrArg (fun l => l[0]?) h.todo_eq
  simp only [getElem?_cons_zero, getElem?_drop, Nat.add_zero, collectDependencies,
    getElem?_map] at h'
  obtain ⟨a, ha, rfl⟩ := map_eq_some_iff.mp h'.symm
  exact ⟨a, ha, rfl⟩

theorem Standing.later (h : Standing as seen todo) (hq : seen.length ≤ q) :
    (seen ++ todo)[q]? = (collectDependencies as)[q]? := by
  rw [getElem?_append_right hq, h.todo_eq, getElem?_drop]
  congr 1
  omega

theorem collectDependencies_getElem {c : Equation K} (h : (collectDependencies as)[q]? = some c) :
    ∃ b, as[q]? = some b ∧ c = b.collectDependencies := by
  rw [collectDependencies, getElem?_map] at h
  obtain ⟨b, hb, rfl⟩ := map_eq_some_iff.mp h
  exact ⟨b, hb, rfl⟩

/-- What the passed equations list is seen, and a flag among them has its
origin in an equation that sees itself. -/
def Sound (as : List (Assignment K)) (seen : List (Equation K)) : Prop :=
  ∀ q e, seen[q]? = some e → (∀ v ∈ e.dependencies, Sees as q v) ∧ (e.cycle → SeesItself as)

/-- The passed equations list all that is seen, and carry no flag. -/
def Complete (as : List (Assignment K)) (seen : List (Equation K)) : Prop :=
  ∀ q e, seen[q]? = some e → e.cycle = false ∧ ∀ v, Sees as q v → v ∈ e.dependencies

theorem getElem?_snoc {α : Type} {l : List α} {x y : α}
    (h : (l ++ [x])[q]? = some y) : l[q]? = some y ∨ (q = l.length ∧ y = x) := by
  rw [getElem?_append, getElem?_singleton] at h
  split_ifs at h
  · exact .inl h
  · exact .inr ⟨by omega, (some.inj h).symm⟩

section Look

variable {as : List (Assignment K)} {seen rest : List (Equation K)} {eqn : Equation K}

variable (hst : Standing as seen (eqn :: rest))
include hst

theorem sees_of_lookAhead (hs : Sound as seen) {v : String}
    (hv : v ∈ lookAhead (seen ++ eqn :: rest) eqn) : Sees as seen.length v := by
  obtain ⟨a, ha, rfl⟩ := hst.head
  rcases mem_append.mp hv with hv | hv
  · exact .direct ha (mem_collectDependencies.mp hv)
  · obtain ⟨w, hw, hv⟩ := mem_flatMap.mp hv
    have hw' := mem_collectDependencies.mp hw
    obtain ⟨c, hfind, -, hv⟩ := (mem_childDependencies _).mp hv
    obtain ⟨q, hidx, hq⟩ := findEquation_index.mp hfind
    rw [hst.results] at hidx
    by_cases hlt : q < seen.length
    · rw [getElem?_append_left hlt] at hq
      exact .earlier ha hw' hidx hlt ((hs q c hq).1 v hv)
    · rw [hst.later (by omega)] at hq
      obtain ⟨b, hb, rfl⟩ := collectDependencies_getElem hq
      exact .later ha hw' hidx (by omega) hb (mem_collectDependencies.mp hv)

/-- A pass that emits a message has met an equation that sees itself. -/
theorem seesItself_of_reported (hs : Sound as seen) (h : Reported (seen ++ eqn :: rest) eqn) :
    SeesItself as := by
  have hahead : eqn.result ∈ lookAhead (seen ++ eqn :: rest) eqn → SeesItself as := by
    intro hmem
    obtain ⟨a, ha, heqn⟩ := hst.head
    refine ⟨seen.length, a, ha, ?_⟩
    have hres : eqn.result = a.result := by rw [heqn]; rfl
    exact hres ▸ sees_of_lookAhead hst hs hmem
  rcases h with (hmem | hany) | hmem
  · exact hahead (mem_append_left _ hmem)
  · obtain ⟨w, -, hcyc⟩ := any_eq_true.mp hany
    unfold childCyclic at hcyc
    split at hcyc
    · exact absurd hcyc Bool.false_ne_true
    · rename_i c hfind
      obtain ⟨q, -, hq⟩ := findEquation_index.mp hfind
      by_cases hlt : q < seen.length
      · rw [getElem?_append_left hlt] at hq
        exact (hs q c hq).2 hcyc
      · rw [hst.later (by omega)] at hq
        obtain ⟨b, -, rfl⟩ := collectDependencies_getElem hq
        exact absurd hcyc Bool.false_ne_true
  · exact hahead hmem

theorem Sound.pass (hs : Sound as seen) :
    Sound as (seen ++ [settle (seen ++ eqn :: rest) eqn]) := by
  intro q e hq
  rcases getElem?_snoc hq with hq | ⟨rfl, rfl⟩
  · exact hs q e hq
  · obtain ⟨a, ha, heqn⟩ := hst.head
    have hraw : ∀ v ∈ eqn.dependencies, Sees as seen.length v := by
      intro v hv
      rw [heqn] at hv
      exact .direct ha (mem_collectDependencies.mp hv)
    by_cases hfl : Flagged (seen ++ eqn :: rest) eqn
    · rw [settle, if_pos hfl]
      exact ⟨hraw, fun _ => seesItself_of_reported hst hs (Or.inl hfl)⟩
    · have hcy : eqn.cycle = false := by rw [heqn]; rfl
      rw [settle, if_neg hfl]
      split
      · exact ⟨hraw, fun hc => absurd (hcy.symm.trans hc) Bool.false_ne_true⟩
      · refine ⟨?_, fun hc => absurd (hcy.symm.trans hc) Bool.false_ne_true⟩
        intro v hv
        exact sees_of_lookAhead hst hs ((mem_foldDependencies _).mp hv)

/-- Once the passed equations list all that is seen, so does the look-ahead. -/
theorem lookAhead_of_sees (hc : Complete as seen) {v : String} (hv : Sees as seen.length v) :
    v ∈ lookAhead (seen ++ eqn :: rest) eqn := by
  obtain ⟨a, ha, rfl⟩ := hst.head
  have hchild : ∀ {w : String} {q : Nat} {c : Equation K}, a.body.Refers w →
      firstIndex (as.map Assignment.result) w = some q →
      (seen ++ a.collectDependencies :: rest)[q]? = some c → c.cycle = false →
      v ∈ c.dependencies → v ∈ lookAhead (seen ++ a.collectDependencies :: rest)
        a.collectDependencies := by
    intro w q c hw hidx hq hcy hv
    rw [← hst.results] at hidx
    have hfind := findEquation_index.mpr ⟨q, hidx, hq⟩
    apply mem_append_right
    refine mem_flatMap.mpr ⟨w, mem_collectDependencies.mpr hw, ?_⟩
    exact (mem_childDependencies _).mpr ⟨c, hfind, hcy, hv⟩
  cases hv with
  | direct ha' hv =>
    obtain rfl := some.inj (ha.symm.trans ha')
    exact mem_append_left _ (mem_collectDependencies.mpr hv)
  | @earlier _ q _ w _ ha' hw hidx hlt hv =>
    obtain rfl := some.inj (ha.symm.trans ha')
    obtain ⟨hcy, hall⟩ := hc q (seen[q]) (getElem?_eq_getElem hlt)
    refine hchild hw hidx ?_ hcy (hall v hv)
    rw [getElem?_append_left hlt]
    exact getElem?_eq_getElem hlt
  | @later _ q _ b w _ ha' hw hidx hle hb hv =>
    obtain rfl := some.inj (ha.symm.trans ha')
    refine hchild hw hidx ?_ rfl (mem_collectDependencies.mpr hv)
    rw [hst.later hle, collectDependencies, getElem?_map, hb]
    rfl

theorem Complete.pass (hc : Complete as seen) (h : ¬ Reported (seen ++ eqn :: rest) eqn) :
    Complete as (seen ++ [settle (seen ++ eqn :: rest) eqn]) := by
  obtain ⟨hfl, hmem⟩ := not_or.mp h
  intro q e hq
  rcases getElem?_snoc hq with hq | ⟨rfl, rfl⟩
  · exact hc q e hq
  · rw [settle, if_neg hfl, if_neg hmem]
    refine ⟨?_, fun v hv => (mem_foldDependencies _).mpr (lookAhead_of_sees hst hc hv)⟩
    obtain ⟨a, -, rfl⟩ := hst.head
    rfl

end Look

section Verdict

variable {as : List (Assignment K)}

theorem scan_sound {seen todo : List (Equation K)}
    (h : Scan [] (collectDependencies as) seen todo) : Standing as seen todo ∧ Sound as seen :=
  h.invariant (P := fun s t => Standing as s t ∧ Sound as s)
    (fun _ _ _ hp => ⟨hp.1.pass, hp.2.pass hp.1⟩)
    ⟨standing_start as, fun q e hq => absurd hq (by simp)⟩

/-- Without a message every position is reached with complete lists. -/
theorem scan_complete (hno : ¬ ScanReports [] (collectDependencies as)) (p : Nat)
    (hp : p ≤ as.length) :
    ∃ seen, Scan [] (collectDependencies as) seen ((collectDependencies as).drop p) ∧
      seen.length = p ∧ Complete as seen := by
  induction p with
  | zero => exact ⟨[], .refl _ _, rfl, fun q e hq => absurd hq (by simp)⟩
  | succ p ih =>
    obtain ⟨seen, hscan, hlen, hc⟩ := ih (by omega)
    have hlt : p < (collectDependencies as).length := by
      rw [collectDependencies, length_map]
      omega
    rw [drop_eq_getElem_cons hlt] at hscan
    refine ⟨_, hscan.snoc, by simp [hlen], ?_⟩
    exact hc.pass (scan_sound hscan).1 (fun hrep => hno ⟨_, _, _, hscan, hrep⟩)

/-- **Which inputs are reported.**  Some pass emits a message iff some
equation sees its own result. -/
theorem scanReports_iff : ScanReports [] (collectDependencies as) ↔ SeesItself as := by
  constructor
  · rintro ⟨seen, eqn, rest, hscan, hrep⟩
    obtain ⟨hst, hs⟩ := scan_sound hscan
    exact seesItself_of_reported hst hs hrep
  · rintro ⟨p, a, ha, hsees⟩
    by_contra hno
    have hlt := (List.getElem?_eq_some_iff.mp ha).1
    obtain ⟨seen, hscan, hlen, hc⟩ := scan_complete hno p (Nat.le_of_lt hlt)
    have hlt' : p < (collectDependencies as).length := by rwa [collectDependencies, length_map]
    rw [drop_eq_getElem_cons hlt'] at hscan
    obtain ⟨hst, -⟩ := scan_sound hscan
    obtain ⟨b, hb, heqn⟩ := hst.head
    obtain rfl := some.inj (ha.symm.trans (hlen ▸ hb))
    refine hno ⟨_, _, _, hscan, Or.inr ?_⟩
    rw [heqn] at hst ⊢
    exact lookAhead_of_sees hst hc (hlen ▸ hsees)

/-- When nothing sees itself no flag is ever set, so no recursion follows a
second level. -/
theorem scanEnds_of_not_seesItself (hno : ¬ SeesItself as) :
    ScanEnds [] (collectDependencies as) := by
  intro seen eqn rest hscan hany
  obtain ⟨hst, hs⟩ := scan_sound hscan
  exact absurd (seesItself_of_reported hst hs (Or.inl (Or.inr hany))) hno

theorem firstIndex_result {w : String} {q : Nat}
    (h : firstIndex (as.map Assignment.result) w = some q) :
    ∃ b, as[q]? = some b ∧ b.result = w := by
  obtain ⟨hlt, hw, -⟩ := findIdx?_eq_some_iff_getElem.mp h
  rw [length_map] at hlt
  refine ⟨as[q], getElem?_eq_getElem hlt, ?_⟩
  simpa using hw

theorem dependsOn_of_sees {p : Nat} {v : String} (h : Sees as p v) (hv : ∃ b ∈ as, b.result = v)
    {a : Assignment K} (ha : as[p]? = some a) : Relation.TransGen (DependsOn as) a.result v := by
  induction h generalizing a with
  | direct ha' href =>
    obtain rfl := some.inj (ha.symm.trans ha')
    exact .single ⟨a, mem_of_getElem? ha, rfl, href, hv⟩
  | earlier ha' hw hidx _ _ ih =>
    obtain rfl := some.inj (ha.symm.trans ha')
    obtain ⟨b, hb, rfl⟩ := firstIndex_result hidx
    exact .head ⟨a, mem_of_getElem? ha, rfl, hw, b, mem_of_getElem? hb, rfl⟩ (ih hv hb)
  | later ha' hw hidx _ hb href =>
    obtain rfl := some.inj (ha.symm.trans ha')
    obtain ⟨b, hb', rfl⟩ := firstIndex_result hidx
    obtain rfl := some.inj (hb.symm.trans hb')
    have hbmem := mem_of_getElem? hb
    exact .head ⟨a, mem_of_getElem? ha, rfl, hw, _, hbmem, rfl⟩ (.single ⟨_, hbmem, rfl, href, hv⟩)

theorem cyclic_of_seesItself (h : SeesItself as) : Cyclic as := by
  obtain ⟨p, a, ha, hsees⟩ := h
  exact ⟨a.result, dependsOn_of_sees hsees ⟨a, mem_of_getElem? ha, rfl⟩ ha⟩

/-- A run that returns reports an error iff some equation sees itself. -/
theorem detectCycles_reports {n : Nat} {r : List (Equation K) × Nat}
    (h : detectCycles n (collectDependencies as) = some r) : r.2 ≠ 0 ↔ SeesItself as :=
  ((detectCyclesFrom_spec _ [] (collectDependencies_cycle as)).2 n r h).trans scanReports_iff

/-- **The verdict of the cycle detection.**  `detectCycles` returns, and with
an error exactly for a cyclic dependency graph, iff the graph has no cycle or
the loop looks ahead as far as some cycle goes and each of its recursions
ends. -/
theorem detectCycles_verdict_iff (as : List (Assignment K)) :
    (∃ n r, detectCycles n (collectDependencies as) = some r ∧ (r.2 ≠ 0 ↔ Cyclic as)) ↔
      ¬ Cyclic as ∨ (SeesItself as ∧ ScanEnds [] (collectDependencies as)) := by
  have hreturns := (detectCyclesFrom_spec _ [] (collectDependencies_cycle as)).1
  constructor
  · rintro ⟨n, r, hrun, hiff⟩
    by_cases hcyc : Cyclic as
    · right
      exact ⟨(detectCycles_reports hrun).mp (hiff.mpr hcyc), hreturns.mp ⟨n, r, hrun⟩⟩
    · left
      exact hcyc
  · rintro (hacyc | ⟨hsees, hends⟩)
    · have hno : ¬ SeesItself as := fun h => hacyc (cyclic_of_seesItself h)
      obtain ⟨n, r, hrun⟩ := hreturns.mpr (scanEnds_of_not_seesItself hno)
      refine ⟨n, r, hrun, fun herr => absurd ((detectCycles_reports hrun).mp herr) hno,
        fun hcyc => absurd hcyc hacyc⟩
    · obtain ⟨n, r, hrun⟩ := hreturns.mpr hends
      exact ⟨n, r, hrun, fun _ => cyclic_of_seesItself hsees,
        fun _ => (detectCycles_reports hrun).mpr hsees⟩

end Verdict

/-- `a = b`, `b = c`, `c = d`, `d = a`, in this order. -/
def fourCycle : List (Assignment Unit) :=
  [⟨"a", .reference "b"⟩, ⟨"b", .reference "c"⟩, ⟨"c", .reference "d"⟩, ⟨"d", .reference "a"⟩]

/-- The cycle of four equations goes unnoticed: when the loop stands at `d`,
the expanded list of `a` goes no further than `c`. -/
theorem detectCycles_fourCycle :
    ¬ ∃ n r, detectCycles n (collectDependencies fourCycle) = some r ∧
      (r.2 ≠ 0 ↔ Cyclic fourCycle) := by
  rintro ⟨n, r, hrun, hiff⟩
  have hedge : ∀ {x y z : String}, ⟨x, .reference y⟩ ∈ fourCycle → ⟨y, .reference z⟩ ∈ fourCycle →
      DependsOn fourCycle x y :=
    fun hx hy => ⟨_, hx, rfl, .here _, _, hy, rfl⟩
  have ha : ⟨"a", .reference "b"⟩ ∈ fourCycle := by simp [fourCycle]
  have hb : ⟨"b", .reference "c"⟩ ∈ fourCycle := by simp [fourCycle]
  have hc : ⟨"c", .reference "d"⟩ ∈ fourCycle := by simp [fourCycle]
  have hd : ⟨"d", .reference "a"⟩ ∈ fourCycle := by simp [fourCycle]
  have hcyc : Cyclic fourCycle :=
    ⟨"a", .head (hedge ha hb) (.head (hedge hb hc) (.head (hedge hc hd) (.single (hedge hd ha))))⟩
  have hone : (detectCycles 1 (collectDependencies fourCycle)).map Prod.snd = some 0 := rfl
  obtain ⟨r', hr', hzero⟩ := map_eq_some_iff.mp hone
  have heq : some r = some r' :=
    (detectCyclesFrom_mono (Nat.le_max_left n 1) hrun).symm.trans
      (detectCyclesFrom_mono (Nat.le_max_right n 1) hr')
  exact hiff.mpr hcyc (some.inj heq ▸ hzero)

end Qucs
