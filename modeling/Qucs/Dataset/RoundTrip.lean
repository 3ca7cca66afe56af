/-
# What is printed can be loaded

From the tokens of its text the grammar makes the dataset again, vector by vector
in the order they were printed in, and the checker accepts of it what it accepts
of the dataset itself. A vector may be called `dep` or `indep`, though, and these
names are keywords of the scanner: then the grammar has no rule.

`load_print_iff` is the result: a dataset whose vectors have identifiers for names
is loaded as it was printed iff no name is a keyword and every variable is
supported by the dependencies it lists.
-/
import Qucs.Dataset.Tokens

namespace Qucs.Dataset

open Lib.Lexer RegularExpression List Printed

/-! ## Parsing -/

def Keyword (name : Name) : Prop := name = depText ∨ name = indepText

instance (name : Name) : Decidable (Keyword name) :=
  inferInstanceAs (Decidable (name = depText ∨ name = indepText))

theorem nameToken_identifier {name : Name} (h : ¬Keyword name) :
    nameToken name = .identifier name := by
  rw [nameToken, if_neg fun hdep => h (.inl hdep), if_neg fun hindep => h (.inr hindep)]

theorem nameToken_keyword {name : Name} (h : Keyword name) :
    nameToken name = .depBegin ∨ nameToken name = .indepBegin := by
  rcases h with rfl | rfl
  · exact .inl rfl
  · exact .inr rfl

def exactData (data : List (Decimal × Decimal)) : List (ℚ × ℚ) :=
  data.map (Prod.map Decimal.value Decimal.value)

theorem floatList_tokens (data : List (Decimal × Decimal)) (s : List Token) :
    floatList (dataTokens data ++ .lt :: s) = ((exactData data).reverse, .lt :: s) := by
  induction data with
  | nil => rfl
  | cons c data ih =>
    obtain ⟨x, y⟩ := c
    have hcons : dataTokens ((x, y) :: data) ++ .lt :: s =
        valueToken (x, y) :: .eol :: (dataTokens data ++ .lt :: s) := rfl
    rw [hcons, valueToken]
    split
    · rw [floatList, floatList, ih]
      simp [exactData, *]
    · rw [floatList, floatList, ih]
      simp [exactData]

theorem identifierList_tokens {names : List Name} (h : ∀ name ∈ names, ¬Keyword name)
    (s : List Token) : identifierList (names.map nameToken ++ .gt :: s) = (names, .gt :: s) := by
  induction names with
  | nil => rfl
  | cons name names ih =>
    rw [map_cons, cons_append, nameToken_identifier (h name mem_cons_self),
      identifierList, ih fun name hmem => h name (mem_cons_of_mem _ hmem)]

/-- The list ends at a keyword. -/
theorem identifierList_keyword {names : List Name} (h : ∃ name ∈ names, Keyword name)
    (s : List Token) : ∀ s', (identifierList (names.map nameToken ++ s)).2 ≠ .gt :: s' := by
  intro s'
  induction names with
  | nil =>
    obtain ⟨name, hmem, -⟩ := h
    cases hmem
  | cons name names ih =>
    rw [map_cons, cons_append]
    by_cases hname : Keyword name
    · rcases nameToken_keyword hname with htoken | htoken <;> simp [htoken, identifierList]
    · rw [nameToken_identifier hname, identifierList]
      exact ih (by simpa [hname] using h)

/-- The vector joins the dataset. -/
def Printed.append (d : Dataset (ℚ × ℚ)) (v : Printed) : Dataset (ℚ × ℚ) :=
  match v.dependencies with
  | some names => appendVariable d ⟨v.name, exactData v.data, some names⟩
  | none => appendDependency d ⟨v.name, exactData v.data, v.data.length⟩

def Printed.body (v : Printed) (s : List Token) : List Token :=
  match v.dependencies with
  | some names => .depBegin :: nameToken v.name :: (names.map nameToken ++ .gt :: .eol ::
      (dataTokens v.data ++ .lt :: .depEnd :: .gt :: .eol :: s))
  | none => .indepBegin :: nameToken v.name :: .integer v.data.length :: .gt :: .eol ::
      (dataTokens v.data ++ .lt :: .indepEnd :: .gt :: .eol :: s)

theorem tokens_append (v : Printed) (s : List Token) : v.tokens ++ s = .lt :: v.body s := by
  rw [tokens, body]
  cases v.dependencies with
  | none => simp [dependencyTokens]
  | some names => simp [variableTokens]

theorem variableVector_body (v : Printed) (h : ∀ name ∈ v.names, ¬Keyword name)
    (d : Dataset (ℚ × ℚ)) (s : List Token) :
    variableVector d (v.body s) = some (v.append d, .eol :: s) := by
  obtain ⟨name, data, dependencies⟩ := v
  have hname := nameToken_identifier (h name mem_cons_self)
  cases dependencies with
  | none => simp [body, append, hname, variableVector, floatList, floatList_tokens]
  | some names =>
    have hnames (s) : identifierList (names.map nameToken ++ .gt :: s) = (names, .gt :: s) :=
      identifierList_tokens (fun n hn => h n (mem_cons_of_mem _ hn)) s
    simp [body, append, hname, variableVector, floatList, floatList_tokens, hnames]

theorem variableVector_keyword (v : Printed) (h : ∃ name ∈ v.names, Keyword name)
    (d : Dataset (ℚ × ℚ)) (s : List Token) : variableVector d (v.body s) = none := by
  obtain ⟨name, data, dependencies⟩ := v
  by_cases hname : Keyword name
  · rcases nameToken_keyword hname with htoken | htoken <;>
      cases dependencies <;> simp [body, htoken, variableVector]
  · cases dependencies with
    | none => simp [names, hname] at h
    | some names =>
      have hlater : ∃ n ∈ names, Keyword n := by simpa [Printed.names, hname] using h
      have hstop := identifierList_keyword hlater (.gt :: .eol ::
        (dataTokens data ++ .lt :: .depEnd :: .gt :: .eol :: s))
      simp only [body, nameToken_identifier hname, variableVector]
      split
      · rename_i heq
        rw [heq] at hstop
        exact absurd rfl (hstop _)
      · rfl

/-- **The vectors are read in their order**, unless one of the names is a
keyword. -/
theorem variableList_tokens (vs : List Printed) (d : Dataset (ℚ × ℚ)) {fuel : ℕ}
    (hfuel : (vs.flatMap Printed.tokens).length ≤ fuel) :
    variableList fuel d (vs.flatMap Printed.tokens) =
      if ∀ v ∈ vs, ∀ name ∈ v.names, ¬Keyword name then some (vs.foldl Printed.append d)
      else none := by
  induction vs generalizing d fuel with
  | nil => cases fuel <;> simp [variableList]
  | cons v vs ih =>
    have hlength : 2 ≤ v.tokens.length := by
      rw [tokens]
      cases v.dependencies <;> simp [dependencyTokens, variableTokens]
    rw [flatMap_cons, length_append] at hfuel
    obtain ⟨fuel, rfl⟩ := Nat.exists_eq_add_of_le' (by omega : 2 ≤ fuel)
    rw [flatMap_cons, tokens_append, variableList]
    by_cases hv : ∀ name ∈ v.names, ¬Keyword name
    · rw [variableVector_body v hv, Option.bind_some]
      dsimp only
      rw [variableList, ih _ (by omega), foldl_cons]
      exact (if_congr (forall_mem_cons.trans (and_iff_right hv)) rfl rfl).symm
    · have hkeyword : ∃ name ∈ v.names, Keyword name := by simpa using hv
      rw [variableVector_keyword v hkeyword, Option.bind_none,
        if_neg fun hall => hv (hall v mem_cons_self)]

theorem input_tokens (vs : List Printed) :
    input (.version :: .eol :: vs.flatMap Printed.tokens) =
      if ∀ v ∈ vs, ∀ name ∈ v.names, ¬Keyword name then some (vs.foldl Printed.append ⟨[], []⟩)
      else none := variableList_tokens vs _ le_rfl

variable {d : Dataset (Decimal × Decimal)}

/-- Datasets with nothing but variables that list dependencies come back. -/
theorem foldl_append_printed (h : ∀ v ∈ d.vars, v.dependencies ≠ none) :
    d.printed.foldl Printed.append ⟨[], []⟩ = d.exact := by
  have hdependencies (e : Dataset (ℚ × ℚ)) (vs : List (Independent (Decimal × Decimal))) :
      (vs.map fun v => Printed.mk v.name v.data none).foldl Printed.append e =
        ⟨e.dependencies ++ vs.map fun v => ⟨v.name, exactData v.data, v.data.length⟩, e.vars⟩ := by
    induction vs generalizing e with
    | nil => simp
    | cons v vs ih => simp [ih, Printed.append, appendDependency]
  have hvars (e : Dataset (ℚ × ℚ)) (vs : List (Variable (Decimal × Decimal)))
      (h : ∀ v ∈ vs, v.dependencies ≠ none) :
      (vs.map fun v => Printed.mk v.name v.data v.dependencies).foldl Printed.append e =
        ⟨e.dependencies, e.vars ++ vs.map fun v => ⟨v.name, exactData v.data, v.dependencies⟩⟩ := by
    induction vs generalizing e with
    | nil => simp
    | cons v vs ih =>
      obtain ⟨names, hnames⟩ := Option.ne_none_iff_exists'.mp (h v mem_cons_self)
      rw [map_cons, foldl_cons, ih _ fun v hv => h v (mem_cons_of_mem _ hv)]
      simp [append, appendVariable, hnames]
  rw [printed, foldl_append, hdependencies, hvars _ _ h]
  rfl

/-! ## Checking -/

section Check

variable {C : Type}

/-- The sizes of the dependencies, multiplied. -/
def sizes (d : Dataset C) (names : List Name) : ℕ :=
  ((names.filterMap d.findDependency).map (·.data.length)).prod

/-- The variable lists dependencies, they exist, and their sizes divide its own. -/
@[mk_iff]
structure Supports (d : Dataset C) (v : Variable C) (names : List Name) : Prop where
  lists : v.dependencies = some names
  nonempty : names ≠ []
  exist : ∀ name ∈ names, ∃ w ∈ d.dependencies, w.name = name
  divides : d.sizes names ≠ 0 → d.sizes names ∣ v.data.length

variable {d : Dataset C}

theorem findDependency_isNone {name : Name} :
    d.findDependency name = none ↔ ¬∃ w ∈ d.dependencies, w.name = name := by
  simp [findDependency]

theorem dependencySizes_eq (d : Dataset C) (names : List Name) : d.dependencySizes names =
    (d.sizes names, names.countP fun name => (d.findDependency name).isNone) := by
  have hfold (n e : ℕ) : names.foldl d.multiplySize (n, e) =
      (n * d.sizes names, e + names.countP fun name => (d.findDependency name).isNone) := by
    induction names generalizing n e with
    | nil => simp [sizes]
    | cons name names ih =>
      rw [foldl_cons, multiplySize]
      cases hfind : d.findDependency name with
      | none => simp [ih, sizes, hfind, add_assoc, add_comm]
      | some v => simp [ih, sizes, hfind, mul_assoc]
  rw [dependencySizes, hfold, one_mul, zero_add]

theorem checkVariable_eq_zero {v : Variable C} :
    d.checkVariable v = 0 ↔ ∃ names, d.Supports v names := by
  rw [checkVariable]
  split
  case h_1 hlist =>
    refine iff_of_false one_ne_zero ?_
    rintro ⟨names, h⟩
    cases hlist.symm.trans h.lists
  case h_2 hlist =>
    refine iff_of_false one_ne_zero ?_
    rintro ⟨names, h⟩
    cases hlist.symm.trans h.lists
    exact h.nonempty rfl
  case h_3 names hne hlist =>
    have hexist : (names.countP fun name => (d.findDependency name).isNone) = 0 ↔
        ∀ name ∈ names, ∃ w ∈ d.dependencies, w.name = name := by
      simp [countP_eq_zero, findDependency_isNone]
    rw [dependencySizes_eq]
    rw [Nat.add_eq_zero_iff, hexist, ite_eq_right_iff]
    constructor
    · rintro ⟨hexist, hdivides⟩
      refine ⟨names, hlist, hne, hexist, fun hsizes => ?_⟩
      by_contra hrest
      exact one_ne_zero (hdivides ⟨hsizes, fun hmod => hrest (Nat.dvd_of_mod_eq_zero hmod)⟩)
    · rintro ⟨names', h⟩
      obtain rfl := Option.some.inj (hlist.symm.trans h.lists)
      exact ⟨h.exist, fun hmod => absurd (Nat.mod_eq_zero_of_dvd (h.divides hmod.1)) hmod.2⟩

theorem check_iff : d.check ↔ (∀ v ∈ d.dependencies, (v.data.length : ℤ) = v.requested) ∧
      ∀ v ∈ d.vars, ∃ names, d.Supports v names := by
  simp only [check, decide_eq_true_eq, Nat.add_eq_zero_iff, sum_eq_zero_iff,
    forall_mem_map, checkVariable_eq_zero]
  refine and_congr_left' (forall₂_congr fun v _ => ?_)
  simp [checkDependency]

end Check

theorem exact_findDependency (d : Dataset (Decimal × Decimal)) (name : Name) :
    (d.exact.findDependency name).map (·.data.length) =
      (d.findDependency name).map (·.data.length) := by
  rw [findDependency, findDependency, exact, find?_map]
  simp [Function.comp_def]

theorem exact_sizes (d : Dataset (Decimal × Decimal)) (names : List Name) :
    d.exact.sizes names = d.sizes names := by
  simp only [sizes, map_filterMap, exact_findDependency]

/-- The checker sees no difference between what was printed and what is read. -/
theorem check_exact : d.exact.check ↔ ∀ v ∈ d.vars, ∃ names, d.Supports v names := by
  have hrequested : ∀ v ∈ d.exact.dependencies, (v.data.length : ℤ) = v.requested := by simp [exact]
  have hsupports (v : Variable (Decimal × Decimal)) (names : List Name) :
      d.exact.Supports ⟨v.name, exactData v.data, v.dependencies⟩ names ↔ d.Supports v names := by
    simp only [supports_iff, exact_sizes]
    simp [exact, exactData]
  rw [check_iff, and_iff_right hrequested]
  show (∀ v ∈ d.vars.map _, _) ↔ _
  rw [forall_mem_map]
  exact forall₂_congr fun v _ => exists_congr fun names => hsupports v names

/-! ## The round trip -/

/-- A property of the names of all vectors is one of the names that are
printed. -/
theorem names_printed {P : Name → Prop} (hsupports : ∀ v ∈ d.vars, ∃ names, d.Supports v names) :
    (∀ v ∈ d.printed, ∀ name ∈ v.names, P name) ↔
      (∀ v ∈ d.dependencies, P v.name) ∧ ∀ v ∈ d.vars, P v.name := by
  simp only [printed, forall_mem_append, forall_mem_map, names,
    forall_mem_cons, Option.getD_none, not_mem_nil, false_implies, implies_true, and_true]
  refine and_congr_right fun hdependencies => forall₂_congr fun v hv => and_iff_left ?_
  obtain ⟨names, h⟩ := hsupports v hv
  rw [h.lists]
  intro name hname
  obtain ⟨w, hw, rfl⟩ := h.exist name hname
  exact hdependencies w hw

theorem load_print_eq (hdependencies : ∀ v ∈ d.dependencies, v.name ∈ identifier.matches')
    (hvars : ∀ v ∈ d.vars, v.name ∈ identifier.matches')
    (hsupports : ∀ v ∈ d.vars, ∃ names, d.Supports v names) :
    load d.print = if (∀ v ∈ d.dependencies, ¬Keyword v.name) ∧ ∀ v ∈ d.vars, ¬Keyword v.name
      then some d.exact else none := by
  have hlist : ∀ v ∈ d.vars, v.dependencies ≠ none := by
    intro v hv
    obtain ⟨names, h⟩ := hsupports v hv
    simp [h.lists]
  rw [load, lex_print ((names_printed hsupports).mpr ⟨hdependencies, hvars⟩), input_tokens,
    foldl_append_printed hlist, if_congr (names_printed hsupports) rfl rfl]
  split
  · exact Option.filter_some_pos (check_exact.mpr hsupports)
  · rfl

/-- **A dataset is loaded as it was printed iff no name is a keyword** and
every variable is supported by the dependencies it lists. -/
theorem load_print_iff {d : Dataset (Decimal × Decimal)}
    (hdependencies : ∀ v ∈ d.dependencies, v.name ∈ identifier.matches')
    (hvars : ∀ v ∈ d.vars, v.name ∈ identifier.matches') :
    load d.print = some d.exact ↔
      ((∀ v ∈ d.dependencies, ¬Keyword v.name) ∧ ∀ v ∈ d.vars, ¬Keyword v.name) ∧
        ∀ v ∈ d.vars, ∃ names, d.Supports v names := by
  constructor
  case mp =>
    intro hload
    have hsupports := check_exact.mp (Option.filter_eq_some_iff.mp hload).2
    rw [load_print_eq hdependencies hvars hsupports] at hload
    split at hload
    case isTrue hkeyword => exact ⟨hkeyword, hsupports⟩
    case isFalse => cases hload
  case mpr =>
    rintro ⟨hkeyword, hsupports⟩
    rw [load_print_eq hdependencies hvars hsupports, if_pos hkeyword]

/-- `-3.5e-2` and zero. -/
def sampleValues : List (Decimal × Decimal) :=
  let digits : List.Vector (Fin 10) 20 := ⟨5 :: List.replicate 19 0, rfl⟩
  let zero : Decimal := ⟨false, 0, ⟨List.replicate 20 0, rfl⟩, 0⟩
  [(⟨true, 3, digits, -2⟩, ⟨true, 3, digits, -2⟩), (⟨true, 3, digits, -2⟩, zero)]

def sampleDataset : Dataset (Decimal × Decimal) where
  dependencies := [⟨['t'], sampleValues, 0⟩]
  vars := [⟨['v', '.', '1'], sampleValues, some [['t']]⟩]

theorem load_print_sample : load sampleDataset.print = some sampleDataset.exact := by
  refine (load_print_iff (by decide +kernel) (by decide +kernel)).mpr
    ⟨by decide, fun v hv => ⟨[['t']], ?_⟩⟩
  obtain rfl := mem_singleton.mp hv
  exact ⟨rfl, by decide, by decide, fun _ => by decide⟩

/-- A vector with the name of a keyword is printed but not loaded. -/
theorem load_print_keyword :
    depText ∈ identifier.matches' ∧ load (print ⟨[⟨depText, sampleValues, 0⟩], []⟩) = none := by
  have hidentifier : depText ∈ identifier.matches' := by decide +kernel
  refine ⟨hidentifier, ?_⟩
  rw [load_print_eq (by simpa using hidentifier) (by simp) (by simp)]
  exact if_neg fun h => h.1 _ mem_cons_self (.inl rfl)

end Qucs.Dataset
