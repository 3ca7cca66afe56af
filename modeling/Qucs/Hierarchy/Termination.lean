/-
# When the netlist checker returns

The search for cyclic subcircuits always returns, and it finds no error exactly
when no cycle and no undefined type lies below (`validateSubCycles_exact`). The
search along parameter sweeps is exact as well (`validatePara_exact`). Both note
the names on their way, which is `Lib.Walk.clear_iff`.

The counting pass returns iff the flag is set or no cycle can be
reached from the root (`countNonlinearities_returns`,
`countNonlinearities_none`). But the flag is the verdict on one instance only,
the last one the checker looks at (`FlagAfter`): a cycle that was found and
counted as an error is forgotten when a sound instance follows. Hence

* netlistChecker_returns_iff: the checker returns iff its equation checks do and it
  is `Guarded`
* netlistChecker_maskedCycle: a netlist on which it does not
-/
import Qucs.Hierarchy.Expand
import Qucs.Hierarchy.Validate
import Qucs.Lib.Fold
import Qucs.Lib.Walk

namespace Qucs.Hierarchy

open List Option List.Subset

open Relation (ReflTransGen TransGen)
open Lib.Fold Lib.Walk

/-! ## Cycles and undefined types below a type -/

def Cyclic (net : Netlist) (n : String) : Prop :=
  ∃ m, ReflTransGen net.Uses n m ∧ TransGen net.Uses m m

def Dangling (net : Netlist) (n : String) : Prop :=
  ∃ m, ReflTransGen net.Uses n m ∧ net.findSubcircuit m = none

/-- Nothing is wrong below `n`. -/
def Sound (net : Netlist) (n : String) : Prop := ¬Cyclic net n ∧ ¬Dangling net n

variable {net : Netlist} {n b : String}

theorem Cyclic.head (uses : net.Uses n b) (h : Cyclic net b) : Cyclic net n := by
  obtain ⟨m, hm, hc⟩ := h
  exact ⟨m, .head uses hm, hc⟩

theorem Cyclic.step (h : Cyclic net n) : ∃ b, net.Uses n b ∧ Cyclic net b := by
  obtain ⟨m, hm, hc⟩ := h
  rcases ReflTransGen.cases_head hm with rfl | ⟨b, uses, hb⟩
  · obtain ⟨b, uses, hb⟩ := TransGen.head'_iff.mp hc
    exact ⟨b, uses, n, hb, hc⟩
  · exact ⟨b, uses, m, hb, hc⟩

variable {s : Subcircuit}

theorem findSubcircuit_found
    (h : net.findSubcircuit n = some s) : s.instanceName = n ∧ s ∈ net.subcircuits :=
  ⟨beq_iff_eq.mp (find?_some (p := fun s : Subcircuit => s.instanceName == n) h),
    mem_of_find?_eq_some h⟩

variable {d : Definition}

theorem uses_of_mem
    (hs : net.findSubcircuit s.instanceName = some s) (hd : d ∈ s.sub) (hsub : d.isSub)
    (hb : d.typeRef = some b) : net.Uses s.instanceName b := ⟨s, hs, d, hd, hsub, hb⟩

/-! ## Names not yet met -/

/-- How many of the names are not among those met. -/
def fresh (names met : List String) : ℕ := (names.toFinset \ met.toFinset).card

theorem fresh_lt {α : Type} {l : List α} {f : α → String} {fuel : ℕ} (met : List String)
    (h : l.length < fuel) : fresh (l.map f) met < fuel := by
  have hle : fresh (l.map f) met ≤ (l.map f).length :=
    (Finset.card_le_card Finset.sdiff_subset).trans (toFinset_card_le _)
  rw [length_map] at hle
  exact Nat.lt_of_le_of_lt hle h

theorem fresh_anti (names : List String) {met met' : List String} (h : met ⊆ met') :
    fresh names met' ≤ fresh names met := by
  apply Finset.card_le_card
  apply Finset.sdiff_subset_sdiff le_rfl
  intro x hx
  exact mem_toFinset.mpr (h (mem_toFinset.mp hx))

theorem fresh_snoc_lt {names met : List String} (hn : n ∈ names) (hm : n ∉ met) :
    fresh names (met ++ [n]) < fresh names met := by
  apply Finset.card_lt_card
  refine (Finset.ssubset_iff_of_subset ?_).mpr ⟨n, ?_, ?_⟩
  · apply Finset.sdiff_subset_sdiff le_rfl
    intro x hx
    exact mem_toFinset.mpr (mem_append_left _ (mem_toFinset.mp hx))
  · simp [hn, hm]
  · simp

/-! ## The search for cycles -/

/-- Nothing is wrong below `n`, and nothing there was met before. -/
abbrev Passes (net : Netlist) : List String → String → Prop :=
  Clear net.Uses (net.findSubcircuit · ≠ none)

theorem passes_nil : Passes net [] n ↔ Sound net n := by
  constructor
  · intro h
    exact ⟨fun ⟨m, hm, hc⟩ => (h m hm).2.2 hc, fun ⟨m, hm, hn⟩ => (h m hm).1 hn⟩
  · rintro ⟨hc, hd⟩ m hm
    exact ⟨fun hn => hd ⟨m, hm, hn⟩, not_mem_nil, fun h => hc ⟨m, hm, h⟩⟩

def typeRefs (ds : List Definition) : List String :=
  ds.filterMap fun d => if d.isSub then d.typeRef else none

theorem uses_iff (hs : net.findSubcircuit s.instanceName = some s) :
    net.Uses s.instanceName b ↔ b ∈ typeRefs s.sub := by
  simp [Netlist.Uses, hs, typeRefs]

/-- The search returns if it has enough fuel, with at least the names met before, and
without errors if what it looks for is `good`. -/
structure Answers (enough : Prop) (result : Option (ℕ × List String)) (met : List String)
    (good : Prop) : Prop where
  returns : enough → result.isSome
  grows : ∀ {r}, result = some r → met ⊆ r.2
  verdict : ∀ {r}, result = some r → (r.1 = 0 ↔ good)

variable {recurse : Subcircuit → List String → Option (ℕ × List String)}

theorem subCyclesLoop_answers {enough : Prop} {met₀ : List String}
    (hrec : ∀ s met, net.findSubcircuit s.instanceName = some s → met₀ ⊆ met →
      Answers enough (recurse s met) met (Passes net met s.instanceName)) (ds : List Definition) :
    ∀ errors met checked, met₀ ⊆ met →
      Answers enough (subCyclesLoop net recurse ds errors met checked) met
        (errors = 0 ∧ ∀ b ∈ typeRefs ds, b ∈ checked ∨ Passes net met b) := by
  induction ds with
  | nil =>
    intro errors met checked _
    refine ⟨fun _ => rfl, ?_, ?_⟩
    · rintro r ⟨⟩
      exact refl _
    · rintro r ⟨⟩
      simp [typeRefs]
  | cons d ds ih =>
    intro errors met checked hmet
    rw [subCyclesLoop, typeRefs, filterMap_cons, ← typeRefs]
    cases (if d.isSub then d.typeRef else none) with
    | none => exact ih errors met checked hmet
    | some ident =>
      simp only [forall_mem_cons]
      by_cases hin : ident ∈ checked
      · simpa [hin] using ih errors met checked hmet
      cases hfind : net.findSubcircuit ident with
      | none =>
        have hno : ¬Passes net met ident := fun h => (h ident .refl).1 hfind
        simpa [hin, hno] using ih (errors + 1) met (checked ++ [ident]) hmet
      | some sub =>
        obtain ⟨rfl, -⟩ := findSubcircuit_found hfind
        have hsub := hrec sub met hfind hmet
        simp only [if_neg hin]
        rcases hr : recurse sub met with _ | ⟨error, met'⟩
        · rw [hr] at hsub
          exact ⟨hsub.returns, nofun, nofun⟩
        · by_cases hzero : error = 0
          · have hpass := (hsub.verdict hr).mp hzero
            have hsame : ∀ b, (b ∈ checked ∨ b = sub.instanceName) ∨ Passes net met b ↔
                b ∈ checked ∨ Passes net met b := by
              intro b
              refine ⟨?_, Or.imp_left .inl⟩
              rintro ((h | rfl) | h)
              · exact .inl h
              · exact .inr hpass
              · exact .inr h
            simpa [hzero, hsame, hpass] using ih errors met (checked ++ [sub.instanceName]) hmet
          · have hno := mt (hsub.verdict hr).mpr hzero
            have hgrows := hsub.grows hr
            have hrest := ih (errors + error) met' (checked ++ [sub.instanceName])
              (List.Subset.trans hmet hgrows)
            show Answers enough (if error = 0 then _ else _) met _
            rw [if_neg hzero]
            refine ⟨hrest.returns, fun h => List.Subset.trans hgrows (hrest.grows h), fun h => ?_⟩
            rw [hrest.verdict h]
            simp [hin, hno, hzero]

variable {fuel : ℕ}

/-- **The search for cyclic definitions** returns, since every level of the recursion
meets a new type, and finds no error iff nothing is wrong. -/
theorem validateSubCycles_answers : ∀ {s : Subcircuit} (met : List String),
    net.findSubcircuit s.instanceName = some s →
      Answers (fresh (net.subcircuits.map Subcircuit.instanceName) met < fuel)
        (validateSubCycles net fuel s met) met (Passes net met s.instanceName) := by
  induction fuel with
  | zero =>
    intro s met _
    exact ⟨fun h => absurd h (Nat.not_lt_zero _), nofun, nofun⟩
  | succ fuel ih =>
    intro s met hs
    rw [validateSubCycles, Passes, clear_iff]
    by_cases hin : s.instanceName ∈ met
    · rw [if_pos hin]
      refine ⟨fun _ => rfl, ?_, ?_⟩
      · rintro r ⟨⟩
        exact refl _
      · rintro r ⟨⟩
        simp [hin]
    · have hfewer := fresh_snoc_lt (mem_map.mpr ⟨s, (findSubcircuit_found hs).2, rfl⟩) hin
      have hrec : ∀ (s' : Subcircuit) (met' : List String),
          net.findSubcircuit s'.instanceName = some s' → met ++ [s.instanceName] ⊆ met' →
          Answers (fresh (net.subcircuits.map Subcircuit.instanceName) met < fuel + 1)
            (validateSubCycles net fuel s' met') met' (Passes net met' s'.instanceName) := by
        intro s' met' hs' hmet
        have hanti := fresh_anti (net.subcircuits.map Subcircuit.instanceName) hmet
        have hs'' := ih met' hs'
        exact ⟨fun h => hs''.returns (by omega), hs''.grows, hs''.verdict⟩
      have hloop := subCyclesLoop_answers hrec s.sub 0 _ [] (refl _)
      rw [if_neg hin]
      refine ⟨hloop.returns, fun h => List.Subset.trans (subset_append_left _ _) (hloop.grows h),
        fun h => ?_⟩
      rw [hloop.verdict h]
      simp [hin, hs, uses_iff hs]

/-- **Cyclic subcircuits are found exactly.** -/
theorem validateSubCycles_exact (net : Netlist) {type : String} {s : Subcircuit}
    (hs : net.findSubcircuit type = some s) (hf : net.subcircuits.length < fuel) :
    ∃ r, validateSubCycles net fuel s [] = some r ∧ (r.1 = 0 ↔ Sound net type) := by
  obtain ⟨rfl, -⟩ := findSubcircuit_found hs
  have hsearch := @validateSubCycles_answers net fuel s [] hs
  obtain ⟨r, hr⟩ := isSome_iff_exists.mp (hsearch.returns (fresh_lt [] hf))
  exact ⟨r, hr, (hsearch.verdict hr).trans passes_nil⟩

/-- Two types that use a third one. -/
def diamond : Netlist where
  root := []
  subcircuits := [⟨"A", [], [subInstance "X1" [] "B", subInstance "X2" [] "C"]⟩,
    ⟨"B", [], [subInstance "Y1" [] "D"]⟩, ⟨"C", [], [subInstance "Y1" [] "D"]⟩, ⟨"D", [], []⟩]

theorem validateSubCycles_diamond : ∃ s, diamond.findSubcircuit "A" = some s ∧
    ∃ r, validateSubCycles diamond 5 s [] = some r ∧ (r.1 = 0 ↔ Sound diamond "A") ∧ r.1 = 0 := by
  have hs : diamond.findSubcircuit "A" = some _ := rfl
  obtain ⟨r, hr, hiff⟩ := validateSubCycles_exact diamond hs
    (show diamond.subcircuits.length < 5 by decide)
  exact ⟨_, rfl, r, hr, hiff, by cases hr; rfl⟩

/-! ## The flag -/

def instances (net : Netlist) (ds : List Definition) : List Subcircuit :=
  ds.filterMap fun d => if d.isSub then net.getSubcircuit d else none

variable {ds : List Definition}

theorem mem_instances :
    s ∈ instances net ds ↔ ∃ d ∈ ds, d.isSub ∧ net.getSubcircuit d = some s := by
  unfold instances
  rw [mem_filterMap]
  constructor
  · rintro ⟨d, hd, hs⟩
    cases hsub : d.isSub with
    | false => simp [hsub] at hs
    | true => exact ⟨d, hd, hsub, by simpa [hsub] using hs⟩
  · rintro ⟨d, hd, hsub, hs⟩
    exact ⟨d, hd, by simpa [hsub] using hs⟩

/-- The flag after the instances of these types: the verdict on the last. -/
structure FlagAfter (net : Netlist) (l : List Subcircuit) (flag flag' : ℕ) : Prop where
  last : ∀ s, l.getLast? = some s → (flag' = 0 ↔ Sound net s.instanceName)
  same : l = [] → flag' = flag

theorem FlagAfter.nil (net : Netlist) (flag : ℕ) : FlagAfter net [] flag flag :=
  ⟨fun _ h => (some_ne_none _ h.symm).elim, fun _ => rfl⟩

theorem FlagAfter.append {l m : List Subcircuit} {f f₁ f₂ : ℕ}
    (h₁ : FlagAfter net l f f₁) (h₂ : FlagAfter net m f₁ f₂) : FlagAfter net (l ++ m) f f₂ := by
  cases m with
  | nil =>
    rw [append_nil, h₂.same rfl]
    exact h₁
  | cons s m =>
    constructor
    · intro s' hs'
      exact h₂.last s' (by simpa [getLast?_cons] using hs')
    · intro e
      simp at e

/-- What the pass over one definition list has found out. -/
structure ListChecked (net : Netlist) (ds : List Definition) (r r' : ℕ × ℕ) : Prop where
  flag : FlagAfter net (instances net ds) r.2 r'.2
  errors : r'.1 = 0 → r.1 = 0 ∧ ∀ d ∈ ds, d.isSub →
    ∃ s, net.getSubcircuit d = some s ∧ d.nodes.length = s.nodes.length ∧ Sound net s.instanceName

theorem ListChecked.nil (net : Netlist) (r : ℕ × ℕ) : ListChecked net [] r r :=
  ⟨.nil net _, fun h0 => ⟨h0, fun _ hd => (not_mem_nil hd).elim⟩⟩

theorem ListChecked.append {ds es : List Definition} {r r₁ r₂ : ℕ × ℕ}
    (h₁ : ListChecked net ds r r₁) (h₂ : ListChecked net es r₁ r₂) :
    ListChecked net (ds ++ es) r r₂ := by
  constructor
  · unfold instances
    rw [filterMap_append]
    exact h₁.flag.append h₂.flag
  · intro h0
    obtain ⟨h0', hes⟩ := h₂.errors h0
    obtain ⟨h0'', hds⟩ := h₁.errors h0'
    refine ⟨h0'', ?_⟩
    intro d hd
    rcases mem_append.mp hd with hd | hd
    · exact hds d hd
    · exact hes d hd

variable {r : ℕ × ℕ}

theorem ListChecked.of_le {e e' f : ℕ}
    (h : ListChecked net ds (e', f) r) (hle : e ≤ e') : ListChecked net ds (e, f) r := by
  refine ⟨h.flag, ?_⟩
  intro h0
  obtain ⟨he, hds⟩ := h.errors h0
  exact ⟨Nat.eq_zero_of_le_zero (hle.trans_eq he), hds⟩

/-- A component, or an instance without a type, leaves the flag alone. -/
theorem ListChecked.skip {errors e : ℕ} (flag : ℕ)
    (hd : d.isSub → net.getSubcircuit d = none ∧ e ≠ 0) (hle : errors ≤ e) :
    ListChecked net [d] (errors, flag) (e, flag) := by
  have none : instances net [d] = [] := by
    cases hsub : d.isSub with
    | false => simp [instances, hsub]
    | true => simp [instances, hsub, (hd hsub).1]
  constructor
  · rw [none]
    exact .nil net flag
  · intro h0
    have he : e = 0 := h0
    refine ⟨Nat.eq_zero_of_le_zero (hle.trans_eq he), ?_⟩
    intro d' hd' hsub
    cases mem_singleton.mp hd'
    exact absurd he (hd hsub).2

/-- An instance with a type sets the flag to the verdict on that type. -/
theorem ListChecked.verdict {err : ℕ} (errors flag : ℕ) (hsub : d.isSub)
    (hget : net.getSubcircuit d = some s) (hv : err = 0 ↔ Sound net s.instanceName) :
    ListChecked net [d] (errors, flag)
      ((if d.nodes.length = s.nodes.length then errors else errors + 1) + err, err) := by
  have single : instances net [d] = [s] := by simp [instances, hsub, hget]
  constructor
  · rw [single]
    refine ⟨?_, fun e => nomatch e⟩
    intro s' hs'
    cases hs'
    exact hv
  · intro h0
    have h0' := h0
    split at h0'
    · next hlen =>
      refine ⟨(Nat.add_eq_zero_iff.mp h0').1, ?_⟩
      intro d' hd' _
      cases mem_singleton.mp hd'
      exact ⟨s, hget, hlen, hv.mp (Nat.add_eq_zero_iff.mp h0').2⟩
    · omega

theorem validateSubcircuits_checked (ds : List Definition) :
    ∀ {r r' : ℕ × ℕ}, validateSubcircuits net fuel ds r = some r' → ListChecked net ds r r' := by
  induction ds with
  | nil =>
    intro r r' h
    cases h
    exact .nil net _
  | cons d ds ih =>
    rintro ⟨errors, flag⟩ r' h
    unfold validateSubcircuits at h
    split at h
    · next hsub =>
      split at h
      · next hnone =>
        refine ListChecked.append (.skip flag ?_ (Nat.le_succ _)) (ih h)
        exact fun _ => ⟨by simp [Netlist.getSubcircuit, hnone], Nat.succ_ne_zero _⟩
      · next ident hident =>
        split at h
        · next hnone =>
          refine ListChecked.append (.skip flag ?_ (Nat.le_succ _)) (ih h)
          exact fun _ => ⟨by simp [Netlist.getSubcircuit, hident, hnone], Nat.succ_ne_zero _⟩
        · next sub hfind =>
          have hget : net.getSubcircuit d = some sub := by
            simp [Netlist.getSubcircuit, hident, hfind]
          have found := (getSubcircuit_found hget).1
          cases hr : validateSubCycles net fuel sub [] with
          | none => simp only [hr, reduceCtorEq] at h
          | some verdict =>
            simp only [hr] at h
            refine ListChecked.append (.verdict errors flag hsub hget ?_) (ih h)
            exact ((validateSubCycles_answers [] found).verdict hr).trans passes_nil
    · next hsub => exact ListChecked.append (.skip flag (fun h => absurd h hsub) le_rfl) (ih h)

theorem validateSubcircuits_returns (hf : net.subcircuits.length < fuel) (ds : List Definition) :
    ∀ r, ∃ r', validateSubcircuits net fuel ds r = some r' := by
  induction ds with
  | nil =>
    intro r
    exact ⟨r, rfl⟩
  | cons d ds ih =>
    rintro ⟨errors, flag⟩
    unfold validateSubcircuits
    split
    · split
      · exact ih _
      · split
        · exact ih _
        · next sub hfind =>
          obtain ⟨rfl, -⟩ := findSubcircuit_found hfind
          obtain ⟨r, hr⟩ := isSome_iff_exists.mp
            ((validateSubCycles_answers [] hfind).returns (fresh_lt [] hf))
          rw [hr]
          exact ih _
    · exact ih _

/-! ## The counting pass -/

theorem countNonlinearities_step {flag fuel : ℕ}
    (h : flag = 0 → ∀ s ∈ instances net ds, ∃ c, countNonlinearities net flag fuel s.sub = some c) :
    ∃ c, countNonlinearities net flag (fuel + 1) ds = some c := by
  refine foldlM_returns ?_ 0
  intro d hd count
  generalize (if d.nonlinear then count + 1 else count) = count
  split
  · next hsub =>
    split
    · next sub hget =>
      obtain ⟨c, hc⟩ := h hsub.1 sub (mem_instances.mpr ⟨d, hd, hsub.2, hget⟩)
      exact ⟨count + c, by rw [hc]; rfl⟩
    · exact ⟨count, rfl⟩
  · exact ⟨count, rfl⟩

/-- **With the flag set, or without a cycle below the list, counting returns.** -/
theorem countNonlinearities_returns {flag fuel : ℕ} :
    ∀ {ds : List Definition}, (flag = 0 → ∀ s ∈ instances net ds,
        ¬Cyclic net s.instanceName ∧ rank net s.instanceName < fuel) →
      ∃ c, countNonlinearities net flag (fuel + 1) ds = some c := by
  induction fuel with
  | zero =>
    intro ds h
    refine countNonlinearities_step ?_
    intro hflag s hs
    exact absurd (h hflag s hs).2 (Nat.not_lt_zero _)
  | succ fuel ih =>
    intro ds h
    refine countNonlinearities_step ?_
    intro hflag s hs
    obtain ⟨acyclic, hrank⟩ := h hflag s hs
    obtain ⟨d, -, -, hget⟩ := mem_instances.mp hs
    refine ih ?_
    intro _ s' hs'
    obtain ⟨d', hd', hsub', hget'⟩ := mem_instances.mp hs'
    have uses := uses_of_mem (getSubcircuit_found hget).1 hd' hsub' (getSubcircuit_found hget').2
    have below : ¬Cyclic net s'.instanceName := fun hc => acyclic (hc.head uses)
    have lower := rank_lt_of_uses uses (getSubcircuit_mem hget') (fun hc => below ⟨_, .refl, hc⟩)
    exact ⟨below, by omega⟩

/-- **Without the flag, counting never returns from a cycle.** -/
theorem countNonlinearities_none : ∀ {ds : List Definition} {s : Subcircuit}, s ∈ instances net ds →
      Cyclic net s.instanceName → countNonlinearities net 0 fuel ds = none := by
  induction fuel with
  | zero =>
    intro ds s _ _
    rfl
  | succ fuel ih =>
    intro ds s hs hc
    obtain ⟨d, hd, hsub, hget⟩ := mem_instances.mp hs
    obtain ⟨b, ⟨s₁, hs₁, d', hd', hsub', hb⟩, hcb⟩ := hc.step
    cases (getSubcircuit_found hget).1.symm.trans hs₁
    have defined : ∃ s', net.findSubcircuit b = some s' := by
      obtain ⟨_, ⟨s', hs', -⟩, -⟩ := hcb.step
      exact ⟨s', hs'⟩
    obtain ⟨s', hs'⟩ := defined
    have hget' : net.getSubcircuit d' = some s' := by simp [Netlist.getSubcircuit, hb, hs']
    have inner := ih (mem_instances.mpr ⟨d', hd', hsub', hget'⟩)
      ((findSubcircuit_found hs').1.symm ▸ hcb)
    refine foldlM_none hd ?_ 0
    intro count
    simp [hsub, hget, inner]

/-! ## Parameter sweeps -/

theorem paraCyclesLoop_returns {names : List String} {recurse : String → List String → Option ℕ}
    {bound : ℕ} (inst : String)
    (hrec : ∀ sim deps, fresh names deps < bound → ∃ e, recurse sim deps = some e)
    (ds : List Definition) (hds : ∀ d ∈ ds, d.instanceName ∈ names) :
    ∀ deps, fresh names deps ≤ bound → ∃ e, paraCyclesLoop recurse inst ds deps = some e := by
  induction ds with
  | nil =>
    intro deps _
    exact ⟨0, rfl⟩
  | cons d ds ih =>
    intro deps hb
    have rest := ih fun d' hd' => hds d' (mem_cons_of_mem _ hd')
    unfold paraCyclesLoop
    split
    · next hd =>
      split
      · exact ⟨1, rfl⟩
      · next hnew =>
        have fewer := fresh_snoc_lt (hd.2 ▸ hds d mem_cons_self) hnew
        split
        · exact hrec _ _ (by omega)
        · exact rest _ (by omega)
    · exact rest deps hb

/-- **The search along parameter sweeps returns**: every level of the recursion
meets a new action. -/
theorem validateParaCycles_returns {root : List Definition} :
    ∀ inst deps, fresh (root.map Definition.instanceName) deps < fuel →
      ∃ e, validateParaCycles root fuel inst deps = some e := by
  induction fuel with
  | zero =>
    intro inst deps hf
    exact absurd hf (Nat.not_lt_zero _)
  | succ fuel ih =>
    intro inst deps hf
    exact paraCyclesLoop_returns inst ih root (fun d hd => mem_map.mpr ⟨d, hd, rfl⟩) deps (by omega)

theorem validatePara_returns {root : List Definition} (hf : root.length < fuel) :
    ∃ e, validatePara fuel root = some e := by
  refine foldlM_returns ?_ 0
  intro d _ errors
  split
  · split
    · exact ⟨_, rfl⟩
    · next sim _ =>
      obtain ⟨e, he⟩ := validateParaCycles_returns sim [] (fresh_lt [] hf)
      rw [he]
      exact ⟨_, rfl⟩
  · exact ⟨_, rfl⟩

section Sweeps

variable {root : List Definition}

/-- The action `a` is a parameter sweep of the action `b`. -/
def SweepOf (root : List Definition) (a b : String) : Prop :=
  ∃ d ∈ root, (d.action ∧ d.type = "SW") ∧ d.instanceName = a ∧ d.findReference "Sim" = some b

/-- Exactly one action has the name. -/
abbrev NamesOne (root : List Definition) (n : String) : Prop :=
  root.countP (fun d => d.action && d.instanceName == n) = 1

/-- The loop looks at the actions with the name. -/
theorem paraCyclesLoop_filter {recurse : String → List String → Option ℕ} {inst : String} :
    ∀ (ds : List Definition) (met : List String), paraCyclesLoop recurse inst ds met =
      paraCyclesLoop recurse inst (ds.filter fun d => d.action && d.instanceName == inst) met
  | [], _ => rfl
  | d :: ds, met => by
    by_cases hd : d.action ∧ d.instanceName = inst
    · rw [filter_cons_of_pos (by simpa using hd), paraCyclesLoop, if_pos hd, paraCyclesLoop,
        if_pos hd, paraCyclesLoop_filter ds]
    · rw [filter_cons_of_neg (by simpa using hd), paraCyclesLoop, if_neg hd,
        paraCyclesLoop_filter ds]

/-- The search along the sweeps finds no error iff it meets no action twice. -/
theorem validateParaCycles_verdict (hone : ∀ a b, SweepOf root a b → NamesOne root b) :
    ∀ {inst : String} {met : List String} {e : ℕ}, NamesOne root inst →
      validateParaCycles root fuel inst met = some e →
      (e = 0 ↔ Clear (SweepOf root) (fun _ => True) met inst) := by
  induction fuel with
  | zero =>
    intro inst met e _ h
    cases h
  | succ fuel ih =>
    intro inst met e hinst h
    obtain ⟨d, hd⟩ := length_eq_one_iff.mp ((countP_eq_length_filter ..).symm.trans hinst)
    have hmem : ∀ d', d' ∈ root ∧ d'.action ∧ d'.instanceName = inst ↔ d' = d := by
      intro d'
      rw [← mem_singleton (b := d), ← hd, mem_filter, Bool.and_eq_true, beq_iff_eq]
    have hnext : ∀ b, SweepOf root inst b ↔
        (if d.type = "SW" then d.findReference "Sim" else none) = some b := by
      intro b
      rw [Option.ite_none_right_eq_some]
      constructor
      · rintro ⟨d', hd', ⟨haction, hsw⟩, hname, hsim⟩
        obtain rfl := (hmem d').mp ⟨hd', haction, hname⟩
        exact ⟨hsw, hsim⟩
      · rintro ⟨hsw, hsim⟩
        obtain ⟨hroot, haction, hname⟩ := (hmem d).mpr rfl
        exact ⟨d, hroot, ⟨haction, hsw⟩, hname, hsim⟩
    rw [validateParaCycles, paraCyclesLoop_filter, hd, paraCyclesLoop,
      if_pos ((hmem d).mpr rfl).2] at h
    rw [clear_iff]
    by_cases hin : inst ∈ met
    · rw [if_pos hin] at h
      cases h
      simp [hin]
    · rw [if_neg hin] at h
      cases hsim : (if d.type = "SW" then d.findReference "Sim" else none) with
      | none =>
        rw [hsim] at h
        cases h
        simp [hin, hnext, hsim]
      | some sim =>
        rw [hsim] at h
        rw [ih (hone inst sim ((hnext sim).mpr hsim)) h]
        simp [hin, hnext, hsim]

def paraErrors (fuel : ℕ) (root : List Definition) (d : Definition) : Option ℕ :=
  if d.action ∧ d.type = "SW" then
    match d.findReference "Sim" with
    | none => some 1
    | some sim => (validateParaCycles root fuel sim []).map
        ((if d.instanceName = sim then 1 else 0) + (if NamesOne root sim then 0 else 1) + ·)
  else some 0

theorem paraErrors_eq_zero {d : Definition} : paraErrors fuel root d = some 0 ↔
    (d.action ∧ d.type = "SW" → ∃ sim, d.findReference "Sim" = some sim ∧ d.instanceName ≠ sim ∧
      NamesOne root sim ∧ validateParaCycles root fuel sim [] = some 0) := by
  unfold paraErrors
  split_ifs with hsw
  · cases d.findReference "Sim" with
    | none => simp [hsw]
    | some sim => simp [hsw, NamesOne, and_left_comm, and_comm]
  · simp [hsw]

theorem validatePara_eq_zero {e : ℕ} (he : validatePara fuel root = some e) :
    e = 0 ↔ ∀ d ∈ root, paraErrors fuel root d = some 0 := by
  rw [foldlM_add (g := paraErrors fuel root) ?_ he]
  · simp
  · intro b d
    unfold paraErrors
    split_ifs with hsw
    · cases d.findReference "Sim" with
      | none => rfl
      | some sim =>
        rw [Option.map_map]
        refine congrArg (Option.map · _) (funext fun k => ?_)
        dsimp only [Function.comp_apply]
        split_ifs <;> omega
    · rfl

/-- **Parameter sweeps are validated exactly**: the check returns, and without an error
iff each sweep names one action and no action is met again on the way along the
sweeps. -/
theorem validatePara_exact (root : List Definition) (hf : root.length < fuel) :
    ∃ e, validatePara fuel root = some e ∧ (e = 0 ↔
      (∀ d ∈ root, d.action ∧ d.type = "SW" →
        ∃ sim, d.findReference "Sim" = some sim ∧ NamesOne root sim) ∧
      ∀ a, ¬TransGen (SweepOf root) a a) := by
  obtain ⟨e, he⟩ := validatePara_returns hf
  refine ⟨e, he, ?_⟩
  simp only [validatePara_eq_zero he, paraErrors_eq_zero]
  constructor
  · intro hsweep
    have hone : ∀ a b, SweepOf root a b →
        NamesOne root b ∧ validateParaCycles root fuel b [] = some 0 := by
      rintro a b ⟨d, hd, hsw, -, hsim⟩
      obtain ⟨sim, hsim', -, hsearch⟩ := hsweep d hd hsw
      obtain rfl := some.inj (hsim.symm.trans hsim')
      exact hsearch
    refine ⟨fun d hd hsw => ?_, fun a hcycle => ?_⟩
    · obtain ⟨sim, hsim, -, hnames, -⟩ := hsweep d hd hsw
      exact ⟨sim, hsim, hnames⟩
    · obtain ⟨b, hab, hba⟩ := TransGen.head'_iff.mp hcycle
      obtain ⟨hnames, hsearch⟩ := hone a b hab
      exact ((validateParaCycles_verdict (fun a b h => (hone a b h).1) hnames hsearch).mp rfl
        a hba).2.2 hcycle
  · rintro ⟨hsweep, hcycle⟩ d hd hsw
    obtain ⟨sim, hsim, hnames⟩ := hsweep d hd hsw
    refine ⟨sim, hsim, ?_, hnames, ?_⟩
    · rintro rfl
      exact hcycle _ (.single ⟨d, hd, hsw, rfl, hsim⟩)
    · obtain ⟨k, hk⟩ := validateParaCycles_returns sim [] (fresh_lt [] hf)
      have hone : ∀ a b, SweepOf root a b → NamesOne root b := by
        rintro a b ⟨d, hd, hsw, -, hsim⟩
        obtain ⟨sim, hsim', hnames⟩ := hsweep d hd hsw
        exact some.inj (hsim'.symm.trans hsim) ▸ hnames
      rw [hk, (validateParaCycles_verdict hone hnames hk).mpr fun x _ =>
        ⟨trivial, not_mem_nil, hcycle x⟩]

def nestedSweeps : List Definition :=
  [{ component "SW" "SW1" [] with refs := [("Sim", "SW2")], action := true },
    { component "SW" "SW2" [] with refs := [("Sim", "AC1")], action := true },
    { component "AC" "AC1" [] with action := true }]

theorem validatePara_nestedSweeps : nestedSweeps.length < 4 ∧
    validatePara 4 nestedSweeps = some 0 ∧ ∀ a, ¬TransGen (SweepOf nestedSweeps) a a := by
  have hlen : nestedSweeps.length < 4 := by decide
  obtain ⟨e, he, hiff⟩ := validatePara_exact nestedSweeps hlen
  have hzero : e = 0 := some.inj (he.symm.trans (show validatePara 4 nestedSweeps = some 0 by rfl))
  exact ⟨hlen, hzero ▸ he, (hiff.mp hzero).2⟩

end Sweeps

/-! ## The checker -/

/-- The types of all instances, in the order the checker meets them: those of
the root, then those of each subcircuit. -/
def checkedInstances (net : Netlist) : List Subcircuit := instances net net.lists.flatten

/-- What keeps the counting pass out of cycles: there is no action, so nothing is
counted; or something is wrong below the last instance, so the flag is set; or
there is no cycle to descend into. -/
def Guarded (net : Netlist) : Prop :=
  countDefinitions net.root none true < 1 ∨
    (∃ s, (checkedInstances net).getLast? = some s ∧ ¬Sound net s.instanceName) ∨
    ∀ s ∈ instances net net.root, ¬Cyclic net s.instanceName

variable {checks : Checks}

theorem checkSubcircuits_checked
    (ss : List Subcircuit) : ∀ {r r' : ℕ × ℕ}, checkSubcircuits net checks fuel ss r = some r' →
      (∀ s ∈ ss, (checks.subEquations s).isSome) ∧
        ListChecked net (ss.flatMap Subcircuit.sub) r r' := by
  induction ss with
  | nil =>
    intro r r' h
    cases h
    exact ⟨fun _ hs => (not_mem_nil hs).elim, .nil net _⟩
  | cons s ss ih =>
    intro r r' h
    obtain ⟨r₁, h₁, h⟩ := bind_eq_some_iff.mp h
    obtain ⟨err, herr, h⟩ := bind_eq_some_iff.mp h
    obtain ⟨hss, rest⟩ := ih h
    constructor
    · intro s' hs'
      rcases mem_cons.mp hs' with rfl | hs'
      · rw [herr]
        rfl
      · exact hss s' hs'
    · exact (validateSubcircuits_checked s.sub h₁).append (rest.of_le (Nat.le_add_right _ _))

theorem checkSubcircuits_returns (hf : net.subcircuits.length < fuel) (ss : List Subcircuit)
    (heqns : ∀ s ∈ ss, (checks.subEquations s).isSome) :
    ∀ r, ∃ r', checkSubcircuits net checks fuel ss r = some r' := by
  induction ss with
  | nil =>
    intro r
    exact ⟨r, rfl⟩
  | cons s ss ih =>
    intro r
    obtain ⟨r₁, h₁⟩ := validateSubcircuits_returns hf s.sub r
    obtain ⟨err, herr⟩ := isSome_iff_exists.mp (heqns s mem_cons_self)
    obtain ⟨r', h'⟩ := ih (fun s' hs' => heqns s' (mem_cons_of_mem _ hs')) (r₁.1 + err, r₁.2)
    refine ⟨r', ?_⟩
    unfold checkSubcircuits
    rw [h₁, bind_eq_bind, bind_some, herr]
    exact h'

/-- **A netlist without errors is resolved.** -/
theorem ListChecked.resolved
    (h : ListChecked net net.lists.flatten (0, 0) r) (h0 : r.1 = 0) : net.Resolved := by
  obtain ⟨-, all⟩ := h.errors h0
  constructor
  · intro n hc
    obtain ⟨b, uses, hb⟩ := TransGen.head'_iff.mp hc
    obtain ⟨s, hs, d, hd, hsub, htype⟩ := uses
    have listed : s.sub ∈ net.lists :=
      mem_cons_of_mem _ (mem_map.mpr ⟨s, (findSubcircuit_found hs).2, rfl⟩)
    obtain ⟨s', hs', -, sound⟩ := all d (mem_flatten.mpr ⟨_, listed, hd⟩) hsub
    cases htype.symm.trans (getSubcircuit_found hs').2
    exact sound.1 ⟨n, hb, hc⟩
  · intro ds hds d hd hsub
    obtain ⟨s, hs, hlen, -⟩ := all d (mem_flatten.mpr ⟨ds, hds, hd⟩) hsub
    exact ⟨s, hs, hlen⟩

theorem checked_lists {fuel err : ℕ} {r₁ r₂ : ℕ × ℕ}
    (h₁ : validateSubcircuits net fuel net.root (0, 0) = some r₁)
    (h₂ : checkSubcircuits net checks fuel net.subcircuits (r₁.1 + err, r₁.2) = some r₂) :
    ListChecked net net.lists.flatten (0, 0) r₂ := by
  have rest := (checkSubcircuits_checked _ h₂).2.of_le (Nat.le_add_right _ _)
  have whole := (validateSubcircuits_checked _ h₁).append rest
  rwa [flatMap_def] at whole

/-- A checker that returns is guarded: otherwise the flag is clear when counting
starts, with a cycle ahead. -/
theorem guarded_of_returns
    {r : ℕ × Option (List Copy)} (h : netlistChecker net checks fuel = some r) :
    checks.rootEquations.isSome ∧ (∀ s ∈ net.subcircuits, (checks.subEquations s).isSome) ∧
      Guarded net := by
  obtain ⟨r₁, h₁, h⟩ := bind_eq_some_iff.mp h
  obtain ⟨err, herr, h⟩ := bind_eq_some_iff.mp h
  obtain ⟨r₂, h₂, h⟩ := bind_eq_some_iff.mp h
  obtain ⟨actions, hact, -⟩ := bind_eq_some_iff.mp h
  have lists := checked_lists h₁ h₂
  refine ⟨isSome_iff_exists.mpr ⟨err, herr⟩, (checkSubcircuits_checked _ h₂).1, ?_⟩
  by_contra hg
  obtain ⟨hn, hlast, s, hs, hc⟩ : ¬countDefinitions net.root none true < 1 ∧
      (∀ s, (checkedInstances net).getLast? = some s → Sound net s.instanceName) ∧
      ∃ s ∈ instances net net.root, Cyclic net s.instanceName := by
    simpa [Guarded, not_or] using hg
  have clear : r₂.2 = 0 := by
    cases hl : (checkedInstances net).getLast? with
    | none => exact lists.flag.same (getLast?_eq_none_iff.mp hl)
    | some s' => exact (lists.flag.last s' hl).mpr (hlast s' hl)
  unfold validateActions at hact
  rw [if_neg hn, clear, countNonlinearities_none hs hc] at hact
  cases hact

theorem returns_of_guarded (hroot : net.root.length < fuel)
    (hsubs : net.subcircuits.length + 1 < fuel) (heqn : checks.rootEquations.isSome)
    (heqns : ∀ s ∈ net.subcircuits, (checks.subEquations s).isSome) (hg : Guarded net) :
    ∃ r, netlistChecker net checks fuel = some r := by
  have hf : net.subcircuits.length < fuel := by omega
  obtain ⟨r₁, h₁⟩ := validateSubcircuits_returns hf net.root (0, 0)
  obtain ⟨err, herr⟩ := isSome_iff_exists.mp heqn
  obtain ⟨r₂, h₂⟩ := checkSubcircuits_returns hf net.subcircuits heqns (r₁.1 + err, r₁.2)
  have lists := checked_lists h₁ h₂
  obtain ⟨actions, hact⟩ : ∃ e, validateActions net fuel r₂.2 = some e := by
    obtain ⟨sweeps, hsweeps⟩ := validatePara_returns hroot
    unfold validateActions
    rw [hsweeps]
    split
    · exact ⟨_, rfl⟩
    · next hn =>
      obtain ⟨c, hc⟩ : ∃ c, countNonlinearities net r₂.2 (fuel - 1 + 1) net.root = some c := by
        refine countNonlinearities_returns ?_
        intro hflag s hs
        rcases hg with hn' | ⟨s', hlast, unsound⟩ | acyclic
        · exact absurd hn' hn
        · exact absurd ((lists.flag.last s' hlast).mp hflag) unsound
        · have := rank_le net s.instanceName
          exact ⟨acyclic s hs, by omega⟩
      rw [show fuel - 1 + 1 = fuel by omega] at hc
      rw [hc]
      exact ⟨_, rfl⟩
  unfold netlistChecker
  simp only [h₁, herr, h₂, hact, bind_eq_bind, bind_some]
  split
  · next h0 =>
    have resolved := lists.resolved (by omega)
    obtain ⟨flat, hflat, -⟩ := resolved.expand_leaves
    rw [hflat fuel hf]
    exact ⟨_, rfl⟩
  · exact ⟨_, rfl⟩

/-- **When the checker returns**: its equation checks return, and something keeps
the counting pass out of cycles. -/
theorem netlistChecker_returns_iff (net : Netlist) (checks : Checks) :
    (∃ fuel r, netlistChecker net checks fuel = some r) ↔
      checks.rootEquations.isSome ∧ (∀ s ∈ net.subcircuits, (checks.subEquations s).isSome) ∧
        Guarded net := by
  constructor
  · rintro ⟨fuel, r, h⟩
    exact guarded_of_returns h
  · rintro ⟨heqn, heqns, hg⟩
    exact ⟨net.root.length + net.subcircuits.length + 2,
      returns_of_guarded (by omega) (by omega) heqn heqns hg⟩

/-- A type that contains itself, and after it a sound instance. -/
def maskedCycle : Netlist where
  root := [{ component "DC" "DC1" [] with action := true }, subInstance "X1" ["n"] "A"]
  subcircuits := [⟨"A", ["a"], [subInstance "Y1" ["a"] "A"]⟩,
    ⟨"B", ["b"], [subInstance "Z1" ["b"] "C"]⟩, ⟨"C", ["c"], [component "R" "R1" ["c", "gnd"]]⟩]

/-- The cycle through `A` is found twice and then forgotten at the instance of
`C` in `B`, so the checker does not return, whatever its fuel. -/
theorem netlistChecker_maskedCycle :
    ¬∃ fuel r, netlistChecker maskedCycle ⟨some 0, fun _ => some 0, 0⟩ fuel = some r := by
  rintro ⟨fuel, r, hr⟩
  have self : maskedCycle.Uses "A" "A" := ⟨_, rfl, _, mem_cons_self, rfl, rfl⟩
  have leaf : ∀ b, ¬maskedCycle.Uses "C" b := by
    rintro b ⟨s, hs, d, hd, hsub, -⟩
    cases hs
    cases mem_singleton.mp hd
    exact absurd hsub (by decide)
  obtain ⟨-, -, hn | ⟨s, hs, unsound⟩ | acyclic⟩ := guarded_of_returns hr
  · exact absurd hn (by decide)
  · cases hs
    exact unsound (passes_nil.mp (clear_iff.mpr ⟨by decide, not_mem_nil,
      fun b uses => absurd uses (leaf b)⟩))
  · exact acyclic _ (mem_instances.mpr ⟨subInstance "X1" ["n"] "A", by decide, rfl, rfl⟩)
      ⟨"A", .refl, .single self⟩

end Qucs.Hierarchy
