/-
# What one top-level analysis does to the dataset

A sweep names one analysis, so that below it there is a chain of sweeps that ends
at one innermost analysis, or at the DC analysis and another one (`Chain`). A
run down the chain appends to every variable of these the block of a nest of
loops (`block`), adds the parameters to its dependencies from the inside out
(`extend`), and fills the vectors of parameters and points if it is the first
(`Effect`). `solve_effect` is for any dataset, empty or not: it is the induction
hypothesis for the inner sweeps, which are run many times.
-/
import Qucs.Sweeps.Results

namespace Qucs.Sweeps

open List State Sweeps.Dataset
open Function (comp_apply update update_apply update_of_ne update_self)
open List (range)

/-! ## Lists of dependencies -/

def extendOne (l : List String) (p : String) : List String := if p ∈ l then l else l ++ [p]

def extend (l ps : List String) : List String := ps.foldl extendOne l

theorem mem_extendOne {l : List String} {p q : String} : q ∈ extendOne l p ↔ q ∈ l ∨ q = p := by
  rw [extendOne]
  split
  case isTrue h =>
    refine ⟨.inl, ?_⟩
    rintro (hq | rfl)
    · exact hq
    · exact h
  case isFalse => rw [mem_append, mem_singleton]

theorem mem_extend {l ps : List String} {q : String} : q ∈ extend l ps ↔ q ∈ l ∨ q ∈ ps := by
  induction ps generalizing l with
  | nil => simp [extend]
  | cons p ps ih =>
    show q ∈ extend (extendOne l p) ps ↔ _
    rw [ih, mem_extendOne, mem_cons, or_assoc]

theorem extend_append (l ps qs : List String) : extend l (ps ++ qs) = extend (extend l ps) qs :=
  foldl_append

theorem extendOne_self {l : List String} {p : String} (h : p ∈ l) : extendOne l p = l := if_pos h

@[simp] theorem extendOne_extendOne (l : List String) (p : String) :
    extendOne (extendOne l p) p = extendOne l p := extendOne_self (mem_extendOne.mpr (.inr rfl))

theorem extend_of_subset {l ps : List String} (h : ps ⊆ l) : extend l ps = l := by
  induction ps with
  | nil => rfl
  | cons p ps ih =>
    obtain ⟨hp, hps⟩ := cons_subset.mp h
    show extend (extendOne l p) ps = l
    rw [extendOne_self hp, ih hps]

theorem extend_extend (l ps : List String) : extend (extend l ps) ps = extend l ps :=
  extend_of_subset fun _ hq => mem_extend.mpr (.inr hq)

theorem extend_of_nodup {l ps : List String} (h : (l ++ ps).Nodup) : extend l ps = l ++ ps := by
  induction ps generalizing l with
  | nil => exact (append_nil l).symm
  | cons p ps ih =>
    have hp : p ∉ l := fun hmem => by
      rw [nodup_append] at h
      exact h.2.2 p hmem p mem_cons_self rfl
    show extend (extendOne l p) ps = _
    rw [extendOne, if_neg hp, ih (by rwa [append_assoc]), append_assoc]
    rfl

/-! ## Chains -/

section Chain

variable {A : Analyses} {V : Type}

/-- From `a` the sweeps `cs`, the outermost first, lead to the innermost analyses
`l`. -/
inductive Chain (A : Analyses) (children : ℕ → Option (List ℕ)) : ℕ → List ℕ → List ℕ → Prop
  | leaf {a : ℕ} : a ∈ A.actions → (A.object a).type ≠ .sweep → Chain A children a [] [a]
  | single {a b : ℕ} {cs l : List ℕ} : a ∈ A.actions → (A.object a).type = .sweep →
      children a = some [b] → a ∉ cs → Chain A children b cs l → Chain A children a (a :: cs) l
  | pair {a d x : ℕ} : a ∈ A.actions → (A.object a).type = .sweep → children a = some [d, x] →
      d ≠ x → d ∈ A.actions → x ∈ A.actions → (A.object d).type ≠ .sweep →
      (A.object x).type ≠ .sweep → Chain A children a [a] [d, x]

variable {children : ℕ → Option (List ℕ)} {a : ℕ} {cs l : List ℕ}

variable (h : Chain A children a cs l)
include h

theorem Chain.sweeps {c : ℕ} (hc : c ∈ cs) : c ∈ A.actions ∧ (A.object c).type = .sweep := by
  induction h with
  | leaf => cases hc
  | single ha hsweep _ _ _ ih =>
    rcases mem_cons.mp hc with rfl | hc
    · exact ⟨ha, hsweep⟩
    · exact ih hc
  | pair ha hsweep =>
    rw [mem_singleton.mp hc]
    exact ⟨ha, hsweep⟩

theorem Chain.leaves {x : ℕ} (hx : x ∈ l) : x ∈ A.actions ∧ (A.object x).type ≠ .sweep := by
  induction h with
  | leaf ha hplain =>
    rw [mem_singleton.mp hx]
    exact ⟨ha, hplain⟩
  | single _ _ _ _ _ ih => exact ih hx
  | pair _ _ _ _ hd hx' hdplain hxplain =>
    rcases mem_cons.mp hx with rfl | hx
    · exact ⟨hd, hdplain⟩
    · rw [mem_singleton.mp hx]
      exact ⟨hx', hxplain⟩

theorem Chain.leaf_eq (ha : (A.object a).type ≠ .sweep) : cs = [] ∧ l = [a] := by
  cases h with
  | leaf => exact ⟨rfl, rfl⟩
  | single _ hsweep => exact absurd hsweep ha
  | pair _ hsweep => exact absurd hsweep ha

/-- The last order analyses of a sweep are those at the end of its chain. -/
theorem Chain.findLastOrderChildren_eq (ha : (A.object a).type = .sweep) {fuel : ℕ}
    (hf : cs.length ≤ fuel) : findLastOrderChildren children A.object fuel a = some l := by
  induction h generalizing fuel with
  | leaf _ hplain => exact absurd ha hplain
  | @single a b cs l _ _ hchildren _ hb ih =>
    obtain ⟨n, rfl⟩ := Nat.exists_eq_succ_of_ne_zero (Nat.ne_zero_of_lt hf)
    rw [findLastOrderChildren, hchildren]
    dsimp only
    split
    case isTrue hsweep => exact ih hsweep (Nat.le_of_succ_le_succ hf)
    case isFalse hplain => rw [(hb.leaf_eq hplain).2]
  | pair _ _ hchildren _ _ _ hdplain _ =>
    obtain ⟨n, rfl⟩ := Nat.exists_eq_succ_of_ne_zero (Nat.ne_zero_of_lt hf)
    rw [findLastOrderChildren, hchildren]
    exact if_neg hdplain

end Chain

/-! ## Blocks -/

section Effect

variable {A : Analyses} {V : Type} (S : Setup A V)

/-- The values of the variable `n` of `x` that the sweeps `cs` save. -/
def block (x : ℕ) (n : String) : List ℕ → (String → V) → List V
  | [], env => (range (S.points x)).map (S.result x env n)
  | c :: cs, env => (S.values c).flatMap fun v => block x n cs (update env (S.param c) v)

/-- The parameters of the sweeps are set before they are used. -/
theorem block_congr {x : ℕ} {n : String} : ∀ {cs : List ℕ} {env env' : String → V},
    (∀ p, p ∉ cs.map S.param → env p = env' p) → block S x n cs env = block S x n cs env'
  | [], env, env', h => by
    have heq : env = env' := funext fun p => h p not_mem_nil
    rw [heq]
  | c :: cs, env, env', h => by
    rw [block, block]
    congr 1
    funext v
    refine block_congr fun p hp => ?_
    by_cases hpc : p = S.param c
    · rw [hpc, update_self, update_self]
    · rw [update_of_ne hpc, update_of_ne hpc]
      exact h p fun hmem => (mem_cons.mp hmem).elim hpc hp

/-! ## Effects -/

def State.valuesOf (s : State V) (n : String) : List V :=
  ((s.data.vars n).map Variable.values).getD []

/-- The dependencies of the variable, or those it is created with. -/
def depsOf (s : State V) (x : ℕ) (n : String) : List String :=
  match s.data.vars n with
  | some v => v.deplist
  | none => (S.indepName x).toList

/-- The origin of a variable is an analysis that saves it. -/
def Sound (s : State V) : Prop :=
  ∀ n v, s.data.vars n = some v → ∃ x ∈ A.actions, n ∈ S.vars x ∧ v.origin = (A.object x).name

/-- What happens to the variables when `l` were run with the values `added`, below
sweeps over `ps`. -/
structure Saves (l : List ℕ) (ps : List String) (added : ℕ → String → List V) (s t : State V) :
    Prop where
  saved : ∀ x ∈ l, ∀ n ∈ S.vars x, ∃ v, t.data.vars n = some v ∧ v.origin = (A.object x).name ∧
    v.values = s.valuesOf n ++ added x n ∧ v.deplist = extend (depsOf S s x n) ps
  kept : ∀ n, (∀ x ∈ l, n ∉ S.vars x) → t.data.vars n = s.data.vars n

/-- What happens when the sweeps `cs` and the analyses `l` below them were run. -/
structure Effect (cs l : List ℕ) (ps : List String) (added : ℕ → String → List V)
    (s t : State V) : Prop extends Saves S l ps added s t where
  env : ∀ p, p ∉ cs.map S.param → t.env p = s.env p
  ran : ∀ b, b ∈ cs ∨ b ∈ l → t.runs b ≠ 0
  idle : ∀ b, b ∉ cs → b ∉ l → t.runs b = s.runs b
  params : ∀ c ∈ cs, t.data.vector (S.param c) =
    s.data.vector (S.param c) ++ if s.runs c = 0 then S.values c else []
  indeps : ∀ x ∈ l, ∀ f points, S.indep x = some (f, points) →
    t.data.vector f = s.data.vector f ++ if s.runs x = 0 then points else []
  others : ∀ p, p ∉ cs.map S.param → (∀ x ∈ l, S.indepName x ≠ some p) →
    t.data.vector p = s.data.vector p

variable {S} {l : List ℕ} {ps : List String} {added added' : ℕ → String → List V} {s t u : State V}

theorem Saves.sound (h : Saves S l ps added s t) (hl : ∀ x ∈ l, x ∈ A.actions) (sound : Sound S s) :
    Sound S t := by
  intro n v hv
  by_cases hn : ∃ x ∈ l, n ∈ S.vars x
  · obtain ⟨x, hx, hnx⟩ := hn
    obtain ⟨w, hw, horigin, -⟩ := h.saved x hx n hnx
    obtain rfl := Option.some.inj (hv.symm.trans hw)
    exact ⟨x, hl x hx, hnx, horigin⟩
  · rw [h.kept n fun x hx hnx => hn ⟨x, hx, hnx⟩] at hv
    exact sound n v hv

theorem Saves.trans (h : Saves S l ps added s t) (h' : Saves S l ps added' t u) :
    Saves S l ps (fun x n => added x n ++ added' x n) s u := by
  constructor
  case saved =>
    intro x hx n hn
    obtain ⟨v, hv, -, hvalues, hdeps⟩ := h.saved x hx n hn
    obtain ⟨w, hw, horigin, hvalues', hdeps'⟩ := h'.saved x hx n hn
    refine ⟨w, hw, horigin, ?_, ?_⟩
    · rw [hvalues', valuesOf, hv, Option.map_some, Option.getD_some, hvalues, append_assoc]
    · rw [hdeps', depsOf, hv]
      dsimp only
      rw [hdeps, extend_extend]
  case kept =>
    intro n hn
    rw [h'.kept n hn, h.kept n hn]

/-! ### Assigning a parameter -/

theorem assignDependency_vars (d : Dataset V) (o p n : String) :
    (d.assignDependency o p).vars n = (d.vars n).map fun v =>
      if v.origin = o then { v with dependencies := some (extendOne v.deplist p) } else v := by
  show (d.vars n).map _ = _
  congr 1
  funext v
  congr 2
  rw [Variable.deplist, extendOne]
  cases v.dependencies with
  | none => rfl
  | some deps => rfl

theorem assignAll_vars (l : List ℕ) (p n : String) (s : State V) :
    (assignAll A l p s).data.vars n = (s.data.vars n).map fun v =>
      if v.origin ∈ l.map fun x => (A.object x).name then
        { v with dependencies := some (extendOne v.deplist p) } else v := by
  induction l generalizing s with
  | nil => simp [assignAll]
  | cons x l ih =>
    have hstep : assignAll A (x :: l) p s = assignAll A l p
        { s with data := s.data.assignDependency (A.object x).name p } := rfl
    rw [hstep, ih, assignDependency_vars, Option.map_map]
    congr 1
    funext v
    by_cases hx : v.origin = (A.object x).name
    · have hmem : v.origin ∈ (x :: l).map fun x => (A.object x).name := by simp [hx]
      rw [comp_apply, if_pos hx, if_pos hmem]
      split
      · show ({ v with dependencies := some (extendOne (extendOne v.deplist p) p) } :
          Variable V) = _
        rw [extendOne_extendOne]
      · rfl
    · simp [hx]

theorem assignAll_dependencies (l : List ℕ) (p : String) (s : State V) :
    (assignAll A l p s).data.dependencies = s.data.dependencies := by
  induction l generalizing s with
  | nil => rfl
  | cons x l ih => exact ih { s with data := s.data.assignDependency (A.object x).name p }

@[simp] theorem assignAll_vector (l : List ℕ) (p q : String) (s : State V) :
    (assignAll A l p s).data.vector q = s.data.vector q := by
  rw [vector, assignAll_dependencies, ← vector]

theorem assignAll_kept {p n : String} (hl : ∀ x ∈ l, x ∈ A.actions) (sound : Sound S s)
    (hn : ∀ x ∈ l, n ∉ S.vars x) : (assignAll A l p s).data.vars n = s.data.vars n := by
  rw [assignAll_vars]
  cases hv : s.data.vars n with
  | none => rfl
  | some v =>
    obtain ⟨x, hx, hnx, horigin⟩ := sound n v hv
    rw [Option.map_some, if_neg]
    intro hmem
    obtain ⟨y, hy, hname⟩ := mem_map.mp hmem
    rw [A.name_inj y (hl y hy) x hx (hname.trans horigin)] at hy
    exact hn x hy hnx

theorem Saves.assign (h : Saves S l ps added s t) (hl : ∀ x ∈ l, x ∈ A.actions)
    (sound : Sound S t) (p : String) : Saves S l (ps ++ [p]) added s (assignAll A l p t) := by
  constructor
  case saved =>
    intro x hx n hn
    obtain ⟨v, hv, horigin, hvalues, hdeps⟩ := h.saved x hx n hn
    have hmem : v.origin ∈ l.map fun x => (A.object x).name := mem_map.mpr ⟨x, hx, horigin.symm⟩
    refine ⟨{ v with dependencies := some (extendOne v.deplist p) }, ?_, horigin, hvalues, ?_⟩
    · rw [assignAll_vars, hv, Option.map_some, if_pos hmem]
    · rw [Variable.deplist, Option.getD_some, hdeps, extend_append]
      rfl
  case kept =>
    intro n hn
    rw [assignAll_kept hl sound hn, h.kept n hn]

variable {cs : List ℕ}

theorem Effect.assign (h : Effect S cs l ps added s t) (hl : ∀ x ∈ l, x ∈ A.actions)
    (sound : Sound S t) (p : String) : Effect S cs l (ps ++ [p]) added s (assignAll A l p t) where
  toSaves := h.toSaves.assign hl sound p
  env := h.env
  ran := h.ran
  idle := h.idle
  params c hc := (assignAll_vector ..).trans (h.params c hc)
  indeps x hx f points hf := (assignAll_vector ..).trans (h.indeps x hx f points hf)
  others q hq hx := (assignAll_vector ..).trans (h.others q hq hx)

/-! ### An innermost analysis -/

theorem foldl_saveVariable_vars {o : String} {f : Option String} {z : String → V} :
    ∀ {ns : List String}, ns.Nodup → ∀ (d : Dataset V) (m : String),
      (ns.foldl (fun d n => d.saveVariable o n (z n) f) d).vars m =
        if m ∈ ns then (d.saveVariable o m (z m) f).vars m else d.vars m
  | [], _, d, m => by simp
  | n :: ns, hnodup, d, m => by
    obtain ⟨hn, hnodup⟩ := nodup_cons.mp hnodup
    rw [foldl_cons, foldl_saveVariable_vars hnodup]
    by_cases hm : m = n
    · subst hm
      simp [hn]
    · have hsame : (d.saveVariable o n (z n) f).vars m = d.vars m := update_of_ne hm ..
      have hother : ((d.saveVariable o n (z n) f).saveVariable o m (z m) f).vars m =
          (d.saveVariable o m (z m) f).vars m := by
        simp only [saveVariable, update_self, update_of_ne hm]
      simp only [mem_cons, hm, false_or, hsame, hother]

theorem foldl_saveVariable_dependencies {o : String} {f : Option String} {z : String → V}
    (ns : List String) (d : Dataset V) :
    (ns.foldl (fun d n => d.saveVariable o n (z n) f) d).dependencies = d.dependencies := by
  induction ns generalizing d with
  | nil => rfl
  | cons n ns ih => rw [foldl_cons, ih]; rfl

/-- A variable after the values `zs`. -/
def grown (o : String) (f : Option String) (zs : List V) (v : Option (Variable V)) :
    Option (Variable V) :=
  match v, zs with
  | none, [] => none
  | none, zs => some ⟨o, zs, f.map ([·])⟩
  | some v, zs => some { v with values := v.values ++ zs }

theorem savePoint_vars (x : ℕ) (s : State V) (j : ℕ) (n : String) :
    (savePoint S x s j).data.vars n = if n ∈ S.vars x then
      grown (A.object x).name (S.indepName x) [S.result x s.env n j] (s.data.vars n)
      else s.data.vars n := by
  have hvars : ∀ d : Dataset V, d.vars = s.data.vars →
      ((S.vars x).foldl (fun d n => d.saveVariable (A.object x).name n (S.result x s.env n j)
        (S.indepName x)) d).vars n = if n ∈ S.vars x then
      grown (A.object x).name (S.indepName x) [S.result x s.env n j] (s.data.vars n)
      else s.data.vars n := by
    intro d hd
    rw [foldl_saveVariable_vars (S.vars_nodup x), ← hd]
    congr 1
    rw [saveVariable]
    dsimp only
    rw [update_self]
    cases d.vars n <;> rfl
  rw [savePoint]
  split
  · exact hvars _ rfl
  · exact hvars _ rfl

theorem savePoint_dependencies (x : ℕ) (s : State V) (j : ℕ) :
    (savePoint S x s j).data.dependencies = match S.indep x with
      | none => s.data.dependencies
      | some (f, points) =>
        (s.data.addTo f (if s.runs x = 1 then points[j]? else none)).dependencies
    := by
  rw [savePoint]
  rw [foldl_saveVariable_dependencies]
  cases S.indep x <;> rfl

theorem grown_grown (o : String) (f : Option String) (zs zs' : List V) (v : Option (Variable V)) :
    grown o f zs' (grown o f zs v) = grown o f (zs ++ zs') v := by
  cases v with
  | some v => simp [grown]
  | none =>
    cases zs with
    | nil => rfl
    | cons z zs => rfl

theorem foldl_savePoint (x : ℕ) (s : State V) (k : ℕ) :
    ((range k).foldl (savePoint S x) s).env = s.env ∧
    ((range k).foldl (savePoint S x) s).runs = s.runs ∧
    (∀ n, ((range k).foldl (savePoint S x) s).data.vars n = if n ∈ S.vars x then
      grown (A.object x).name (S.indepName x) ((range k).map (S.result x s.env n))
        (s.data.vars n) else s.data.vars n) ∧
    (∀ f points, S.indep x = some (f, points) → ∀ q,
      ((range k).foldl (savePoint S x) s).data.vector q = if q = f then
        s.data.vector f ++ (if s.runs x = 1 then points.take k else []) else s.data.vector q) ∧
    (S.indep x = none → ((range k).foldl (savePoint S x) s).data.dependencies =
      s.data.dependencies) := by
  induction k with
  | zero =>
    refine ⟨rfl, rfl, fun n => ?_, fun f points _ q => ?_, fun _ => rfl⟩
    · split
      · cases hv : s.data.vars n with
        | none => exact hv
        | some v => simp [grown, hv]
      · rfl
    · simp only [take_zero, ite_self, append_nil]
      split
      case isTrue h => rw [h]; rfl
      case isFalse => rfl
  | succ k ih =>
    obtain ⟨henv, hruns, hvars, hsome, hnone⟩ := ih
    rw [range_succ, foldl_append, foldl_cons, foldl_nil]
    set u := (range k).foldl (savePoint S x) s
    refine ⟨henv, hruns, fun n => ?_, fun f points hf q => ?_, fun hn => ?_⟩
    · rw [savePoint_vars, hvars]
      split
      · rw [grown_grown, henv, map_append]
        rfl
      · rfl
    · have hq : (savePoint S x u k).data.vector q = if q = f then
          u.data.vector f ++ (if u.runs x = 1 then points[k]? else none).toList
          else u.data.vector q := by
        rw [vector, savePoint_dependencies, hf]
        show ((update u.data.dependencies f _) q).getD [] = _
        rw [update_apply]
        split <;> rfl
      rw [hq]
      split
      case isTrue heq =>
        rw [hsome f points hf, if_pos rfl, hruns, append_assoc]
        congr 1
        split
        · rw [take_add_one]
        · rfl
      case isFalse hne => rw [hsome f points hf, if_neg hne]
    · rw [savePoint_dependencies, hn]
      exact hnone hn

theorem Setup.indepName_eq (S : Setup A V) {x : ℕ} {f : String} {points : List V}
    (hf : S.indep x = some (f, points)) : S.indepName x = some f := by
  rw [Setup.indepName, hf]
  rfl

theorem Setup.points_pos (S : Setup A V) (x : ℕ) : 0 < S.points x := by
  rw [Setup.points]
  split
  · exact Nat.one_pos
  · next f points hf => exact length_pos_of_ne_nil (S.indep_ne x f points hf)

/-- **One run of an innermost analysis.** -/
theorem solveInnermost_effect (hsep : S.Separate) {x : ℕ} (hx : x ∈ A.actions) (sound : Sound S s) :
    Effect S [] [x] [] (fun x n => block S x n [] s.env) s (solveInnermost S x s) := by
  obtain ⟨henv, hruns, hvars, hsome, hnone⟩ := foldl_savePoint x
    { s with runs := update s.runs x (s.runs x + 1) } (S.points x)
  rw [← solveInnermost] at henv hruns hvars hsome hnone
  have hfirst : update s.runs x (s.runs x + 1) x = 1 ↔ s.runs x = 0 := by
    rw [update_self]
    omega
  constructor
  case toSaves =>
    constructor
    case saved =>
      intro y hy n hn
      obtain rfl := mem_singleton.mp hy
      have hvars := hvars n
      rw [if_pos hn] at hvars
      cases hv : s.data.vars n with
      | none =>
        obtain ⟨k, hk⟩ := Nat.exists_eq_succ_of_ne_zero (S.points_pos y).ne'
        refine ⟨⟨(A.object y).name, block S y n [] s.env, (S.indepName y).map ([·])⟩,
          ?_, rfl, ?_, ?_⟩
        · simp only [hv] at hvars
          rw [hvars, block, hk, range_succ_eq_map]
          rfl
        · rw [valuesOf, hv]
          rfl
        · rw [Variable.deplist, depsOf, hv]
          cases S.indepName y <;> rfl
      | some v =>
        obtain ⟨z, hz, hnz, horigin⟩ := sound n v hv
        rw [hsep.vars z hz y hx n hnz hn] at horigin
        refine ⟨{ v with values := v.values ++ block S y n [] s.env }, ?_, horigin, ?_, ?_⟩
        · simp only [hv] at hvars
          exact hvars
        · rw [valuesOf, hv]
          rfl
        · rw [depsOf, hv]
          rfl
    case kept =>
      intro n hn
      rw [hvars, if_neg (hn x (mem_singleton_self x))]
  case env => exact fun p _ => congrFun henv p
  case ran =>
    rintro b (hb | hb)
    · cases hb
    · rw [hruns, mem_singleton.mp hb]
      show update s.runs x (s.runs x + 1) x ≠ 0
      rw [update_self]
      exact Nat.succ_ne_zero _
  case idle =>
    intro b _ hb
    rw [hruns]
    exact update_of_ne (fun h => hb (mem_singleton.mpr h)) ..
  case params => exact fun c hc => nomatch hc
  case indeps =>
    intro y hy f points hf
    obtain rfl := mem_singleton.mp hy
    have hpoints : S.points y = points.length := by rw [Setup.points, hf]
    rw [hsome f points hf, if_pos rfl, hpoints, take_length]
    congr 1
    exact if_congr hfirst rfl rfl
  case others =>
    intro p _ hp
    cases hf : S.indep x with
    | none => rw [vector, hnone hf, ← vector]
    | some fp =>
      obtain ⟨f, points⟩ := fp
      rw [hsome f points hf, if_neg]
      rintro rfl
      exact hp x (mem_singleton_self x) (S.indepName_eq hf)

/-! ### The loop of a sweep -/

/-- What happens when the sweep `a`, already counted as running, went through the
values `vs`. -/
structure Loop (S : Setup A V) (a : ℕ) (cs l : List ℕ) (ps : List String) (vs : List V)
    (added : ℕ → String → List V) (s t : State V) : Prop extends Saves S l ps added s t where
  env : ∀ p, p ∉ (a :: cs).map S.param → t.env p = s.env p
  self : t.runs a = s.runs a
  ran : ∀ b, b ∈ cs ∨ b ∈ l → t.runs b ≠ 0
  idle : ∀ b, b ∉ a :: cs → b ∉ l → t.runs b = s.runs b
  own : t.data.vector (S.param a) = s.data.vector (S.param a) ++ if s.runs a = 1 then vs else []
  params : ∀ c ∈ cs, t.data.vector (S.param c) =
    s.data.vector (S.param c) ++ if s.runs c = 0 then S.values c else []
  indeps : ∀ x ∈ l, ∀ f points, S.indep x = some (f, points) →
    t.data.vector f = s.data.vector f ++ if s.runs x = 0 then points else []
  others : ∀ p, p ∉ (a :: cs).map S.param → (∀ x ∈ l, S.indepName x ≠ some p) →
    t.data.vector p = s.data.vector p

variable {a : ℕ} {vs ws : List V}

theorem Loop.trans (h : Loop S a cs l ps vs added s t) (h' : Loop S a cs l ps ws added' t u) :
    Loop S a cs l ps (vs ++ ws) (fun x n => added x n ++ added' x n) s u := by
  constructor
  case toSaves => exact h.toSaves.trans h'.toSaves
  case env => exact fun p hp => (h'.env p hp).trans (h.env p hp)
  case self => exact h'.self.trans h.self
  case ran => exact h'.ran
  case idle => exact fun b hb hbl => (h'.idle b hb hbl).trans (h.idle b hb hbl)
  case own =>
    rw [h'.own, h.own, h.self, append_assoc]
    congr 1
    split <;> rfl
  case params =>
    intro c hc
    rw [h'.params c hc, h.params c hc, if_neg (h.ran c (.inl hc)), append_nil]
  case indeps =>
    intro x hx f points hf
    rw [h'.indeps x hx f points hf, h.indeps x hx f points hf, if_neg (h.ran x (.inr hx)),
      append_nil]
  case others => exact fun p hp hx => (h'.others p hp hx).trans (h.others p hp hx)

theorem Saves.of_vars {s' : State V} (h : Saves S l ps added s' t)
    (hvars : s'.data.vars = s.data.vars) : Saves S l ps added s t := by
  constructor
  case saved =>
    intro x hx n hn
    obtain ⟨v, hv, horigin, hvalues, hdeps⟩ := h.saved x hx n hn
    refine ⟨v, hv, horigin, ?_, ?_⟩
    · rw [hvalues, valuesOf, valuesOf, hvars]
    · rw [hdeps, depsOf, depsOf, hvars]
  case kept => exact fun n hn => (h.kept n hn).trans (congrFun hvars n)

theorem solvePoint_loop (hsep : S.Separate) (ha : a ∈ A.actions)
    (hsweep : (A.object a).type = .sweep)
    (hcs : ∀ c ∈ cs, c ∈ A.actions ∧ (A.object c).type = .sweep) (hacs : a ∉ cs)
    (hl : ∀ x ∈ l, x ∈ A.actions ∧ (A.object x).type ≠ .sweep)
    {solve : ℕ → State V → Option (State V)} {lastorder : Option (List ℕ)} {actions : List ℕ}
    (hchildren : ∀ s, Sound S s →
      ∃ t, solveChildren S solve lastorder a actions s = some t ∧
      Effect S cs l ps (fun x n => block S x n cs s.env) s t)
    (sound : Sound S s) (v : V) : ∃ t, solvePoint S solve lastorder a actions s v = some t ∧
      Loop S a cs l ps [v] (fun x n => block S x n cs (update s.env (S.param a) v)) s t := by
  set s₁ : State V := { s with env := update s.env (S.param a) v } with hs₁
  set s₂ := if s₁.runs a = 1 then saveResults S a s₁ else s₁ with hs₂
  have henv : s₂.env = update s.env (S.param a) v := by rw [hs₂]; split <;> rfl
  have hruns : s₂.runs = s.runs := by rw [hs₂]; split <;> rfl
  have hvars : s₂.data.vars = s.data.vars := by rw [hs₂]; split <;> rfl
  have hvector : ∀ p, s₂.data.vector p = if p = S.param a then
      s.data.vector p ++ (if s.runs a = 1 then [v] else []) else s.data.vector p := by
    intro p
    rw [hs₂]
    split
    case isTrue =>
      show ((update s.data.dependencies (S.param a) _) p).getD [] = _
      rw [update_apply]
      split
      case isTrue hp =>
        rw [hp, Option.getD_some, hs₁]
        show _ ++ [update s.env (S.param a) v (S.param a)] = _
        rw [update_self]
        rfl
      case isFalse => rfl
    case isFalse => rw [append_nil, ite_self]
  have hother : ∀ p, p ≠ S.param a → s₂.data.vector p = s.data.vector p := fun p hp => by
    rw [hvector, if_neg hp]
  have hsound : Sound S s₂ := fun n v hv => sound n v (by rwa [hvars] at hv)
  obtain ⟨t, ht, h⟩ := hchildren s₂ hsound
  rw [henv] at h
  have hparam : ∀ c ∈ cs, S.param c ≠ S.param a := fun c hc heq =>
    hacs (S.param_inj c (hcs c hc).1 a ha (hcs c hc).2 hsweep heq ▸ hc)
  refine ⟨t, ht, h.toSaves.of_vars hvars, ?_, ?_, h.ran, ?_, ?_, ?_, ?_, ?_⟩
  · intro p hp
    rw [map_cons, mem_cons, not_or] at hp
    rw [h.env p hp.2, henv, update_of_ne hp.1]
  · rw [h.idle a hacs fun hal => (hl a hal).2 hsweep, hruns]
  · intro b hb hbl
    rw [h.idle b (fun hc => hb (mem_cons_of_mem a hc)) hbl, hruns]
  · rw [h.others (S.param a), hvector, if_pos rfl]
    · intro hmem
      obtain ⟨c, hc, heq⟩ := mem_map.mp hmem
      exact hparam c hc heq
    · exact fun x hx => hsep.param a ha x (hl x hx).1 hsweep
  · intro c hc
    rw [h.params c hc, hother _ (hparam c hc), hruns]
  · intro x hx f points hf
    have hne : f ≠ S.param a := by
      rintro rfl
      exact hsep.param a ha x (hl x hx).1 hsweep (S.indepName_eq hf)
    rw [h.indeps x hx f points hf, hother f hne, hruns]
  · intro p hp hx
    rw [map_cons, mem_cons, not_or] at hp
    rw [h.others p hp.2 hx, hother p hp.1]

/-- **All values of a sweep.** -/
theorem foldlM_loop (hl : ∀ x ∈ l, x ∈ A.actions) {point : State V → V → Option (State V)}
    (hpoint : ∀ s, Sound S s →
      ∀ v, ∃ t, point s v = some t ∧
      Loop S a cs l ps [v] (fun x n => block S x n cs (update s.env (S.param a) v)) s t) :
    ∀ (vs : List V) (v : V) {s : State V}, Sound S s →
      ∃ t, (v :: vs).foldlM point s = some t ∧ Loop S a cs l ps (v :: vs)
        (fun x n => (v :: vs).flatMap fun v => block S x n cs (update s.env (S.param a) v))
        s t
  | [], v, s, sound => by
    obtain ⟨t, ht, h⟩ := hpoint s sound v
    refine ⟨t, ?_, ?_⟩
    · rw [foldlM_cons, ht]
      rfl
    · simpa using h
  | w :: ws, v, s, sound => by
    obtain ⟨t, ht, h⟩ := hpoint s sound v
    obtain ⟨u, hu, h'⟩ := foldlM_loop hl hpoint ws w (h.toSaves.sound hl sound)
    refine ⟨u, ?_, ?_⟩
    · rw [foldlM_cons, ht]
      exact hu
    · have hblock : ∀ x n v, block S x n cs (update t.env (S.param a) v) =
          block S x n cs (update s.env (S.param a) v) := by
        intro x n v
        refine block_congr S fun p hp => ?_
        by_cases hpa : p = S.param a
        · rw [hpa, update_self, update_self]
        · rw [update_of_ne hpa, update_of_ne hpa]
          refine h.env p fun hmem => ?_
          exact (mem_cons.mp hmem).elim hpa hp
      have htrans := h.trans h'
      simp only [hblock] at htrans
      exact htrans

/-! ### The DC analysis and another one -/

theorem Effect.append {l' : List ℕ} (h : Effect S [] l ps added s t)
    (h' : Effect S [] l' ps added t u) (hsep : S.Separate) (hl : ∀ y ∈ l, y ∈ A.actions)
    (hl' : ∀ z ∈ l', z ∈ A.actions) (hdisjoint : l.Disjoint l') :
    Effect S [] (l ++ l') ps added s u := by
  have hvars : ∀ y ∈ l, ∀ z ∈ l', ∀ n ∈ S.vars y, n ∉ S.vars z := fun y hy z hz n hn hn' =>
    hdisjoint hy (hsep.vars y (hl y hy) z (hl' z hz) n hn hn' ▸ hz)
  have hindep : ∀ y ∈ l, ∀ z ∈ l', ∀ f, S.indepName y = some f → S.indepName z ≠ some f :=
    fun y hy z hz f hf hf' => hdisjoint hy (hsep.indep y (hl y hy) z (hl' z hz) f hf hf' ▸ hz)
  constructor
  case toSaves =>
    constructor
    case saved =>
      intro y hy n hn
      rcases mem_append.mp hy with hy | hy
      · rw [h'.kept n fun z hz => hvars y hy z hz n hn]
        exact h.saved y hy n hn
      · have hsaved := h'.saved y hy n hn
        have hkept := h.kept n fun z hz hnz => hvars z hz y hy n hnz hn
        rwa [valuesOf, depsOf, hkept] at hsaved
    case kept =>
      intro n hn
      rw [h'.kept n fun z hz => hn z (mem_append_right l hz),
        h.kept n fun y hy => hn y (mem_append_left l' hy)]
  case env => exact fun q hq => (h'.env q hq).trans (h.env q hq)
  case ran =>
    rintro b (hb | hb)
    · cases hb
    rcases mem_append.mp hb with hb | hb
    · rw [h'.idle b not_mem_nil (hdisjoint hb)]
      exact h.ran b (.inr hb)
    · exact h'.ran b (.inr hb)
  case idle =>
    intro b hb hbl
    rw [mem_append, not_or] at hbl
    rw [h'.idle b hb hbl.2, h.idle b hb hbl.1]
  case params => exact fun c hc => nomatch hc
  case indeps =>
    intro y hy f points hf
    have hname := S.indepName_eq hf
    rcases mem_append.mp hy with hy | hy
    · rw [h'.others f not_mem_nil fun z hz => hindep y hy z hz f hname, h.indeps y hy f points hf]
    · rw [h'.indeps y hy f points hf, h.idle y not_mem_nil fun hy' => hdisjoint hy' hy,
        h.others f not_mem_nil fun z hz hf' => hindep z hz y hy f hf' hname]
  case others =>
    intro q hq hz
    rw [h'.others q hq fun z hzl => hz z (mem_append_right l hzl),
      h.others q hq fun y hyl => hz y (mem_append_left l' hyl)]

theorem assignAll_savePoint (p : String) (x j : ℕ) (s : State V) :
    assignAll A l p (savePoint S x (assignAll A l p s) j) =
      assignAll A l p (savePoint S x s j) := by
  have henv : (assignAll A l p s).env = s.env := rfl
  have hvars : (assignAll A l p (savePoint S x (assignAll A l p s) j)).data.vars =
      (assignAll A l p (savePoint S x s j)).data.vars := by
    funext n
    simp only [assignAll_vars, savePoint_vars]
    generalize (l.map fun y => (A.object y).name) = names
    cases s.data.vars n with
    | none => rfl
    | some v =>
      by_cases hmem : v.origin ∈ names <;> by_cases hn : n ∈ S.vars x <;>
        simp [grown, hmem, hn, Variable.deplist, henv]
  have hdependencies : (assignAll A l p (savePoint S x (assignAll A l p s) j)).data.dependencies =
      (assignAll A l p (savePoint S x s j)).data.dependencies := by
    simp only [assignAll_dependencies, savePoint_dependencies, addTo]
    rfl
  exact congrArg₂ (fun d v => (⟨s.env, s.runs, d, v⟩ : State V)) hdependencies hvars

theorem assignAll_solveInnermost (p : String) (x : ℕ) (s : State V) :
    assignAll A l p (solveInnermost S x (assignAll A l p s)) =
      assignAll A l p (solveInnermost S x s) := by
  obtain ⟨k, hk⟩ := Nat.exists_eq_succ_of_ne_zero (S.points_pos x).ne'
  rw [solveInnermost, solveInnermost, hk]
  clear hk
  induction k with
  | zero => exact assignAll_savePoint p x 0 { s with runs := update s.runs x (s.runs x + 1) }
  | succ k ih =>
    rw [range_succ, foldl_append, foldl_append, foldl_cons, foldl_nil, foldl_cons, foldl_nil,
      ← assignAll_savePoint, ih, assignAll_savePoint]

/-- Each is followed by the assignment to both. -/
theorem pair_effect (hsep : S.Separate) {d x : ℕ} (hd : d ∈ A.actions) (hx : x ∈ A.actions)
    (hne : d ≠ x) (p : String) (sound : Sound S s)
    (ht : t = assignAll A [d, x] p (solveInnermost S d s)) :
    Effect S [] [d, x] [p] (fun y n => block S y n [] s.env) s
      (assignAll A [d, x] p (solveInnermost S x t)) := by
  have hmem : ∀ y ∈ [d] ++ [x], y ∈ A.actions := by simp [hd, hx]
  have hfirst := solveInnermost_effect hsep hd sound
  have sound' := hfirst.toSaves.sound (fun y hy => mem_singleton.mp hy ▸ hd) sound
  have hsecond := solveInnermost_effect hsep hx sound'
  rw [funext fun q => hfirst.env q not_mem_nil] at hsecond
  have heffect := hfirst.append hsecond hsep (by simp [hd]) (by simp [hx]) (by simpa using hne.symm)
  rw [ht, assignAll_solveInnermost]
  exact heffect.assign hmem (heffect.toSaves.sound hmem sound) p

/-! ### A chain -/

variable {children : ℕ → Option (List ℕ)}

theorem solve_sweep (hsep : S.Separate) (ha : a ∈ A.actions) (hsweep : (A.object a).type = .sweep)
    (hcs : ∀ c ∈ cs, c ∈ A.actions ∧ (A.object c).type = .sweep) (hacs : a ∉ cs)
    (hl : ∀ x ∈ l, x ∈ A.actions ∧ (A.object x).type ≠ .sweep) {fuel : ℕ} {actions : List ℕ}
    (hactions : children a = some actions)
    (hchildren : ∀ s, Sound S s →
      ∃ t, solveChildren S (solve S children fuel) (findLastOrderChildren children A.object
      (fuel + 1) a) a actions s = some t ∧
      Effect S cs l ((a :: cs).map S.param).reverse (fun x n => block S x n cs s.env) s t)
    (sound : Sound S s) : ∃ t, solve S children (fuel + 1) a s = some t ∧
      Effect S (a :: cs) l ((a :: cs).map S.param).reverse
        (fun x n => block S x n (a :: cs) s.env) s t := by
  set s₁ : State V := { s with runs := update s.runs a (s.runs a + 1) } with hs₁
  have hsame : ∀ b, b ≠ a → s₁.runs b = s.runs b := fun b hb => update_of_ne hb ..
  have hself : s₁.runs a = s.runs a + 1 := update_self ..
  have hal : a ∉ l := fun hal => (hl a hal).2 hsweep
  obtain ⟨v, vs, hvs⟩ := exists_cons_of_ne_nil (S.values_ne a)
  obtain ⟨t, ht, h⟩ := foldlM_loop (fun x hx => (hl x hx).1)
    (fun s hs v => solvePoint_loop hsep ha hsweep hcs hacs hl hchildren hs v) vs v (s := s₁) sound
  rw [← hvs] at ht h
  refine ⟨t, ?_, ?_⟩
  · rw [solve, if_pos hsweep, hactions]
    exact ht
  constructor
  case toSaves => exact h.toSaves.of_vars rfl
  case env => exact h.env
  case ran =>
    rintro b (hb | hb)
    · rcases mem_cons.mp hb with rfl | hb
      · rw [h.self, hself]
        exact Nat.succ_ne_zero _
      · exact h.ran b (.inl hb)
    · exact h.ran b (.inr hb)
  case idle =>
    intro b hb hbl
    rw [h.idle b hb hbl]
    exact hsame b fun heq => hb (heq ▸ mem_cons_self)
  case params =>
    intro c hc
    rcases mem_cons.mp hc with rfl | hc
    · rw [h.own, hself]
      congr 1
      exact if_congr (by omega) rfl rfl
    · rw [h.params c hc, hsame c fun heq => hacs (heq ▸ hc)]
  case indeps =>
    intro x hx f points hf
    rw [h.indeps x hx f points hf, hsame x fun heq => hal (heq ▸ hx)]
  case others => exact h.others

/-- **One analysis**, with all that is below it. -/
theorem solve_effect (hsep : S.Separate) (h : Chain A children a cs l) :
    ∀ {fuel : ℕ}, cs.length < fuel → ∀ {s : State V}, Sound S s →
      ∃ t, solve S children fuel a s = some t ∧
        Effect S cs l (cs.map S.param).reverse (fun x n => block S x n cs s.env) s t := by
  induction h with
  | @leaf a ha hplain =>
    intro fuel hf s sound
    obtain ⟨n, rfl⟩ := Nat.exists_eq_succ_of_ne_zero (Nat.ne_zero_of_lt hf)
    refine ⟨solveInnermost S a s, ?_, solveInnermost_effect hsep ha sound⟩
    rw [solve, if_neg hplain]
  | @single a b cs l ha hsweep hchildren hacs hb ih =>
    intro fuel hf s sound
    obtain ⟨n, rfl⟩ := Nat.exists_eq_succ_of_ne_zero (Nat.ne_zero_of_lt hf)
    have hchain : Chain A children a (a :: cs) l := .single ha hsweep hchildren hacs hb
    have hl : ∀ x ∈ l, x ∈ A.actions := fun x hx => (hb.leaves hx).1
    refine solve_sweep hsep ha hsweep (fun c => hb.sweeps) hacs (fun x => hb.leaves) hchildren
      (fun s sound => ?_) sound
    obtain ⟨t, ht, heffect⟩ := ih (Nat.lt_of_succ_lt_succ hf) sound
    refine ⟨assignAll A l (S.param a) t, ?_, ?_⟩
    · rw [solveChildren, foldlM_cons, ht, hchain.findLastOrderChildren_eq hsweep hf.le]
      rfl
    · rw [map_cons, reverse_cons]
      exact heffect.assign hl (heffect.toSaves.sound hl sound) (S.param a)
  | @pair a d x ha hsweep hchildren hne hd hx hdplain hxplain =>
    intro fuel hf s sound
    obtain ⟨n, rfl⟩ := Nat.exists_eq_succ_of_ne_zero (Nat.ne_zero_of_lt hf)
    obtain ⟨m, rfl⟩ := Nat.exists_eq_succ_of_ne_zero (Nat.ne_zero_of_lt (Nat.lt_of_succ_lt_succ hf))
    have hchain : Chain A children a [a] [d, x] :=
      .pair ha hsweep hchildren hne hd hx hdplain hxplain
    refine solve_sweep hsep ha hsweep (fun c hc => absurd hc not_mem_nil) not_mem_nil
      (fun y => hchain.leaves) hchildren (fun s sound => ?_) sound
    refine ⟨_, ?_, pair_effect hsep hd hx hne (S.param a) sound rfl⟩
    rw [solveChildren, hchain.findLastOrderChildren_eq hsweep hf.le]
    simp [solve, hdplain, hxplain]

end Effect

end Qucs.Sweeps
