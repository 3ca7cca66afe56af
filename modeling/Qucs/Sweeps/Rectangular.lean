/-
# When the results are rectangular

With every sweep having its children, each analysis heads a chain, and the run is
one effect after the other (`Qucs.Sweeps.Chains`). If the chains of the
top-level analyses have nothing in common, every variable has exactly one block,
and the block of a nest of loops is rectangular (`block_rectangular`). An
analysis that two sweeps share is run once in each of two chains: its variables
get two blocks, and the parameters of both chains as dependencies.
`rectangular_iff` is the exact condition on the analyses.
-/
import Qucs.Sweeps.Chains

namespace Qucs.Sweeps

open Relation List Option Analyses Setup Lib.Fold Lib.Radix

section Forest

variable {A : Analyses} {s : Order}

theorem below_eq_single {x b : ℕ} (h : A.below x = [b]) : b = x := by
  rcases below_cases x with hbelow | ⟨d, -, -, -, hbelow⟩
  · exact (cons.inj (h.symm.trans hbelow)).1
  · exact nomatch (cons.inj (h.symm.trans hbelow)).2

/-- The sweeps of a chain are those its head refers to, and the analyses at the end
belong under the last of them. -/
theorem Chain.reach (hs : A.Ordered s) {a : ℕ} {cs l : List ℕ} (h : Chain A s.children a cs l) :
    (∀ c ∈ cs, ReflTransGen A.Names a c) ∧ (∀ x ∈ l, ReflTransGen A.Under a x) := by
  induction h with
  | @leaf a =>
    refine ⟨fun c hc => absurd hc not_mem_nil, fun x hx => ?_⟩
    rw [mem_singleton.mp hx]
  | @single a b cs l _ _ hchildren _ _ ih =>
    obtain ⟨x, hx, hbelow⟩ := hs.given a [b] hchildren
    obtain rfl := below_eq_single hbelow.symm
    constructor
    · intro c hc
      rcases mem_cons.mp hc with rfl | hc
      · exact .refl
      · exact (ih.1 c hc).head hx
    · exact fun y hy => (ih.2 y hy).head (.inl hx)
  | @pair a d x _ _ hchildren =>
    obtain ⟨y, hy, hbelow⟩ := hs.given a [d, x] hchildren
    constructor
    · intro c hc
      rw [mem_singleton.mp hc]
    · intro z hz
      rw [hbelow] at hz
      exact .single ((mem_below hy).mp hz)

/-- **Every analysis heads a chain** if the sweeps have their children. -/
theorem exists_chain (hs : A.Ordered s) (hdc : A.DcGiven s) {a : ℕ} (ha : a ∈ A.actions) :
    ∃ cs l, Chain A s.children a cs l := by
  induction a using A.wellFounded_names.induction with
  | _ a ih =>
    by_cases hsweep : (A.object a).type = .sweep
    case neg => exact ⟨[], [a], .leaf ha hsweep⟩
    obtain ⟨x, hx⟩ := A.exists_sim a ha hsweep
    obtain ⟨cs, l, hchain⟩ := ih x hx hx.child
    have hchildren := hs.children_eq hdc hx
    rcases below_cases x with hbelow | ⟨d, hd, hplain, hne, hbelow⟩
    · have hacs : a ∉ cs := fun hmem =>
        A.acyclic a (TransGen.head' hx ((hchain.reach hs).1 a hmem))
      exact ⟨a :: cs, l, .single ha hsweep (hbelow ▸ hchildren) hacs hchain⟩
    · refine ⟨[a], [d, x], .pair ha hsweep (hbelow ▸ hchildren) hne hd.1 hx.child ?_ hplain.2⟩
      rw [hd.2]
      decide

end Forest

/-! ## One block -/

section Block

variable {A : Analyses} {V : Type} {S : Setup A V}

/-- The sizes of the block, fastest varying first. -/
def Setup.sizes (S : Setup A V) (x : ℕ) (cs : List ℕ) : List ℕ :=
  ((S.indep x).map fun f => f.2.length).toList ++ (cs.map fun c => (S.values c).length).reverse

def Setup.deps (S : Setup A V) (x : ℕ) (cs : List ℕ) : List String :=
  (S.indepName x).toList ++ (cs.map S.param).reverse

theorem sizes_cons (x c : ℕ) (cs : List ℕ) :
    S.sizes x (c :: cs) = S.sizes x cs ++ [(S.values c).length] := by
  rw [sizes, map_cons, reverse_cons, ← append_assoc]
  rfl

theorem deps_cons (x c : ℕ) (cs : List ℕ) : S.deps x (c :: cs) = S.deps x cs ++ [S.param c] := by
  rw [deps, map_cons, reverse_cons, ← append_assoc]
  rfl

theorem length_deps (x : ℕ) (cs : List ℕ) : (S.deps x cs).length = (S.sizes x cs).length := by
  rw [deps, sizes, indepName]
  cases S.indep x <;> simp

theorem length_block (x : ℕ) (n : String) : ∀ (cs : List ℕ) (env : String → V),
    (block S x n cs env).length = (S.sizes x cs).prod
  | [], env => by
    rw [block, length_map, length_range, points, sizes]
    cases S.indep x <;> simp
  | c :: cs, env => by
    rw [block, sizes_cons, prod_append, prod_singleton]
    exact length_flatMap_block fun v _ => length_block x n cs _

/-- What the value at a place of the block was saved under. -/
structure SavedUnder (S : Setup A V) (x : ℕ) (cs : List ℕ) (env : String → V) (is : List ℕ)
    (env' : String → V) (j : ℕ) : Prop where
  outside : ∀ p, p ∉ cs.map S.param → env' p = env p
  param : ∀ (k : ℕ) p i, (S.deps x cs)[k]? = some p → is[k]? = some i → ∀ c ∈ cs, S.param c = p →
    (S.values c)[i]? = some (env' p)
  point : ∀ (k : ℕ) p i, (S.deps x cs)[k]? = some p → is[k]? = some i → S.indepName x = some p →
    j = i

/-- The outermost sweep is at its value `v`, the last index. -/
theorem SavedUnder.cons {x c : ℕ} {cs : List ℕ} {env env' : String → V} {js : List ℕ} {i j : ℕ}
    {v : V} (hv : (S.values c)[i]? = some v) (hlen : js.length = (S.deps x cs).length)
    (hc : S.param c ∉ S.deps x cs)
    (h : SavedUnder S x cs (Function.update env (S.param c) v) js env' j) :
    SavedUnder S x (c :: cs) env (js ++ [i]) env' j := by
  have hparams : S.param c ∉ cs.map S.param := fun hmem =>
    hc (mem_append_right _ (mem_reverse.mpr hmem))
  have hcase : ∀ (k : ℕ) p i', (S.deps x (c :: cs))[k]? = some p → (js ++ [i])[k]? = some i' →
      ((S.deps x cs)[k]? = some p ∧ js[k]? = some i') ∨ (p = S.param c ∧ i' = i) := by
    intro k p i' hp hi'
    rw [deps_cons] at hp
    rcases Nat.lt_or_ge k js.length with hk | hk
    · rw [getElem?_append_left (hlen ▸ hk)] at hp
      rw [getElem?_append_left hk] at hi'
      exact .inl ⟨hp, hi'⟩
    · rw [getElem?_append_right (hlen ▸ hk)] at hp
      rw [getElem?_append_right hk] at hi'
      exact .inr ⟨mem_singleton.mp (mem_of_getElem? hp), mem_singleton.mp (mem_of_getElem? hi')⟩
  constructor
  case outside =>
    intro p hp
    rw [map_cons, mem_cons, not_or] at hp
    rw [h.outside p hp.2, Function.update_of_ne hp.1]
  case param =>
    intro k p i' hp hi' b hb hbp
    rcases hcase k p i' hp hi' with ⟨hp₁, hi₁⟩ | ⟨rfl, rfl⟩
    · rcases mem_cons.mp hb with rfl | hb
      · exact absurd (hbp ▸ mem_of_getElem? hp₁) hc
      · exact h.param k p i' hp₁ hi₁ b hb hbp
    · rcases mem_cons.mp hb with rfl | hb
      · rw [h.outside _ hparams, Function.update_self, hv]
      · exact absurd (mem_map.mpr ⟨b, hb, hbp⟩) hparams
  case point =>
    intro k p i' hp hi' hname
    rcases hcase k p i' hp hi' with ⟨hp₁, hi₁⟩ | ⟨rfl, rfl⟩
    · exact h.point k p i' hp₁ hi₁ hname
    · refine absurd (mem_append_left _ ?_) hc
      rw [hname]
      exact mem_singleton_self _

/-- **A block is rectangular.** -/
theorem block_rectangular {x : ℕ} (n : String) : ∀ {cs : List ℕ}, (S.deps x cs).Nodup →
    ∀ (env : String → V) {is : List ℕ}, Lib.Radix.Within (S.sizes x cs) is →
      ∃ env' j, (block S x n cs env)[Lib.Radix.position (S.sizes x cs) is]? =
        some (S.result x env' n j) ∧ SavedUnder S x cs env is env' j
  | [], _, env, is, his => by
    cases hf : S.indep x with
    | none =>
      have hpoints : S.points x = 1 := by rw [points, hf]
      have hname : S.indepName x = none := by rw [indepName, hf]; rfl
      refine ⟨env, 0, ?_, fun _ _ => rfl, fun _ _ _ _ _ c hc => absurd hc not_mem_nil,
        fun _ _ _ _ _ h => by cases hname.symm.trans h⟩
      have hsizes : S.sizes x [] = [] := by rw [sizes, hf]; rfl
      rw [hsizes, block, hpoints]
      rfl
    | some fp =>
      obtain ⟨f, points⟩ := fp
      have hpoints : S.points x = points.length := by rw [Setup.points, hf]
      have hsizes : S.sizes x [] = [points.length] := by rw [sizes, hf]; rfl
      rw [hsizes] at his ⊢
      cases his with
      | @cons i _ is _ hi htail =>
        cases htail
        refine ⟨env, i, ?_, fun _ _ => rfl, fun _ _ _ _ _ c hc => absurd hc not_mem_nil,
          fun k p i' hp hi' _ => ?_⟩
        · rw [block, hpoints]
          simp [position, hi]
        · cases k with
          | zero => exact some.inj hi'
          | succ k => cases hi'
  | c :: cs, hnodup, env, is, his => by
    rw [deps_cons] at hnodup
    rw [sizes_cons] at his ⊢
    obtain ⟨js, i, rfl, hjs, hi⟩ := his.split
    have hlen := hjs.length_eq.symm
    have hv := getElem?_eq_getElem hi
    obtain ⟨env', j, hget, hunder⟩ := block_rectangular n (List.Nodup.of_append_left hnodup)
      (Function.update env (S.param c) (S.values c)[i]) hjs
    refine ⟨env', j, ?_, hunder.cons hv (by rw [length_deps, hlen]) fun hmem => ?_⟩
    · rw [position_append hlen, block,
        getElem?_flatMap_block (fun v _ => length_block x n cs _) (position_lt hjs), hv]
      exact hget
    · exact (nodup_append.mp hnodup).2.2 _ hmem _ (mem_singleton_self _) rfl

end Block

/-! ## Chains that have nothing in common -/

section Apart

variable {A : Analyses} {V : Type} {S : Setup A V} {cs l cs' l' : List ℕ} {s t : State V}

structure Same (S : Setup A V) (cs l : List ℕ) (s t : State V) : Prop where
  runs : ∀ b, b ∈ cs ∨ b ∈ l → t.runs b = s.runs b
  params : ∀ c ∈ cs, t.data.vector (S.param c) = s.data.vector (S.param c)
  indeps : ∀ x ∈ l, ∀ f, S.indepName x = some f → t.data.vector f = s.data.vector f
  vars : ∀ x ∈ l, ∀ n ∈ S.vars x, t.data.vars n = s.data.vars n

theorem Same.trans {u : State V} (h : Same S cs l s t) (h' : Same S cs l t u) :
    Same S cs l s u where
  runs b hb := (h'.runs b hb).trans (h.runs b hb)
  params c hc := (h'.params c hc).trans (h.params c hc)
  indeps x hx f hf := (h'.indeps x hx f hf).trans (h.indeps x hx f hf)
  vars x hx n hn := (h'.vars x hx n hn).trans (h.vars x hx n hn)

/-- A chain: sweeps and, at its end, other analyses. -/
structure IsChain (A : Analyses) (cs l : List ℕ) : Prop where
  sweeps : ∀ c ∈ cs, c ∈ A.actions ∧ (A.object c).type = .sweep
  leaves : ∀ x ∈ l, x ∈ A.actions ∧ (A.object x).type ≠ .sweep
  nodup : cs.Nodup

theorem Chain.isChain {children : ℕ → Option (List ℕ)} {a : ℕ} (h : Chain A children a cs l) :
    IsChain A cs l := by
  refine ⟨fun c => h.sweeps, fun x => h.leaves, ?_⟩
  induction h with
  | leaf => exact nodup_nil
  | single _ _ _ hacs _ ih => exact nodup_cons.mpr ⟨hacs, ih⟩
  | pair => exact nodup_singleton _

theorem Effect.same {ps : List String} {added : ℕ → String → List V}
    (h : Effect S cs l ps added s t) (hsep : S.Separate) (hc : IsChain A cs l)
    (hc' : IsChain A cs' l') (apart : ∀ b, b ∈ cs' ∨ b ∈ l' → b ∉ cs ∧ b ∉ l) :
    Same S cs' l' s t := by
  constructor
  case runs => exact fun b hb => h.idle b (apart b hb).1 (apart b hb).2
  case params =>
    intro c hcc
    refine h.others _ (fun hmem => ?_) fun x hx =>
      hsep.param c (hc'.sweeps c hcc).1 x (hc.leaves x hx).1 (hc'.sweeps c hcc).2
    obtain ⟨b, hb, heq⟩ := mem_map.mp hmem
    rw [S.param_inj b (hc.sweeps b hb).1 c (hc'.sweeps c hcc).1 (hc.sweeps b hb).2
      (hc'.sweeps c hcc).2 heq] at hb
    exact (apart c (.inl hcc)).1 hb
  case indeps =>
    intro x hx f hf
    refine h.others f (fun hmem => ?_) fun y hy hyf => ?_
    · obtain ⟨b, hb, rfl⟩ := mem_map.mp hmem
      exact hsep.param b (hc.sweeps b hb).1 x (hc'.leaves x hx).1 (hc.sweeps b hb).2 hf
    · rw [hsep.indep y (hc.leaves y hy).1 x (hc'.leaves x hx).1 f hyf hf] at hy
      exact (apart x (.inr hx)).2 hy
  case vars =>
    intro x hx n hn
    refine h.kept n fun y hy hny => ?_
    rw [hsep.vars y (hc.leaves y hy).1 x (hc'.leaves x hx).1 n hny hn] at hy
    exact (apart x (.inr hx)).2 hy

structure Untouched (S : Setup A V) (cs l : List ℕ) (s : State V) : Prop where
  runs : ∀ b, b ∈ cs ∨ b ∈ l → s.runs b = 0
  params : ∀ c ∈ cs, s.data.vector (S.param c) = []
  indeps : ∀ x ∈ l, ∀ f, S.indepName x = some f → s.data.vector f = []
  vars : ∀ x ∈ l, ∀ n ∈ S.vars x, s.data.vars n = none

structure Done (S : Setup A V) (cs l : List ℕ) (s : State V) : Prop where
  params : ∀ c ∈ cs, s.data.vector (S.param c) = S.values c
  indeps : ∀ x ∈ l, ∀ f points, S.indep x = some (f, points) → s.data.vector f = points
  vars : ∀ x ∈ l, ∀ n ∈ S.vars x, ∃ v env, s.data.vars n = some v ∧
    v.origin = (A.object x).name ∧ v.values = block S x n cs env ∧ v.deplist = S.deps x cs

theorem Untouched.of_same (h : Untouched S cs l s) (same : Same S cs l s t) :
    Untouched S cs l t where
  runs b hb := (same.runs b hb).trans (h.runs b hb)
  params c hc := (same.params c hc).trans (h.params c hc)
  indeps x hx f hf := (same.indeps x hx f hf).trans (h.indeps x hx f hf)
  vars x hx n hn := (same.vars x hx n hn).trans (h.vars x hx n hn)

theorem Done.of_same (h : Done S cs l s) (same : Same S cs l s t) : Done S cs l t where
  params c hc := (same.params c hc).trans (h.params c hc)
  indeps x hx f points hf :=
    (same.indeps x hx f (S.indepName_eq hf)).trans (h.indeps x hx f points hf)
  vars x hx n hn := by
    obtain ⟨v, env, hv, hrest⟩ := h.vars x hx n hn
    exact ⟨v, env, (same.vars x hx n hn).trans hv, hrest⟩

theorem IsChain.nodup_deps (hc : IsChain A cs l) (hsep : S.Separate) {x : ℕ} (hx : x ∈ l) :
    (S.deps x cs).Nodup := by
  refine nodup_append.mpr ⟨?_, nodup_reverse.mpr ?_, ?_⟩
  · cases S.indepName x <;> simp
  · refine List.Nodup.map_on (fun b hb c hc' heq => ?_) hc.nodup
    exact S.param_inj b (hc.sweeps b hb).1 c (hc.sweeps c hc').1 (hc.sweeps b hb).2
      (hc.sweeps c hc').2 heq
  · rintro f hf p hp rfl
    obtain ⟨c, hc', rfl⟩ := mem_map.mp (mem_reverse.mp hp)
    exact hsep.param c (hc.sweeps c hc').1 x (hc.leaves x hx).1 (hc.sweeps c hc').2
      (mem_toList.mp hf)

theorem Effect.done
    (h : Effect S cs l (cs.map S.param).reverse (fun x n => block S x n cs s.env) s t)
    (hsep : S.Separate) (hc : IsChain A cs l) (hs : Untouched S cs l s) : Done S cs l t := by
  constructor
  case params =>
    intro c hcc
    rw [h.params c hcc, hs.params c hcc, if_pos (hs.runs c (.inl hcc)), nil_append]
  case indeps =>
    intro x hx f points hf
    rw [h.indeps x hx f points hf, hs.indeps x hx f (S.indepName_eq hf),
      if_pos (hs.runs x (.inr hx)), nil_append]
  case vars =>
    intro x hx n hn
    obtain ⟨v, hv, horigin, hvalues, hdeps⟩ := h.saved x hx n hn
    refine ⟨v, s.env, hv, horigin, ?_, ?_⟩
    · rw [hvalues, State.valuesOf, hs.vars x hx n hn]
      rfl
    · rw [hdeps, depsOf, hs.vars x hx n hn]
      exact extend_of_nodup (hc.nodup_deps hsep hx)

/-- **A chain that was run once has rectangular results.** -/
theorem Done.rectangular (h : Done S cs l s) (hsep : S.Separate) (hc : IsChain A cs l) {x : ℕ}
    (hx : x ∈ l) {n : String} (hn : n ∈ S.vars x) {v : Variable V} (hv : s.data.vars n = some v) :
    v.origin = (A.object x).name ∧ v.values.length = (s.data.sizes v).prod ∧
      ∀ is, Lib.Radix.Within (s.data.sizes v) is → SavedAt S s.data x n v is := by
  obtain ⟨w, env, hw, horigin, hvalues, hdeps⟩ := h.vars x hx n hn
  obtain rfl := some.inj (hw.symm.trans hv)
  have hsizes : s.data.sizes w = S.sizes x cs := by
    rw [Dataset.sizes, hdeps, deps, sizes, map_append, map_reverse, List.map_map]
    congr 1
    · cases hf : S.indep x with
      | none => simp [indepName, hf]
      | some fp =>
        obtain ⟨f, points⟩ := fp
        simp [indepName, hf, h.indeps x hx f points hf]
    · congr 1
      refine map_congr_left fun c hcc => ?_
      rw [Function.comp_apply, h.params c hcc]
  refine ⟨horigin, ?_, fun is his => ?_⟩
  · rw [hsizes, hvalues, length_block]
  rw [hsizes] at his
  obtain ⟨env', j, hget, hunder⟩ := block_rectangular n (hc.nodup_deps hsep hx) env his
  refine ⟨env', j, ?_, fun k p i hp hi => ⟨fun a ha hsweep hap => ?_, ?_⟩⟩
  · rw [hsizes, hvalues, hget]
  · rw [hdeps] at hp
    have hmem := mem_of_getElem? hp
    rcases mem_append.mp hmem with hf | hmem
    · rw [← hap] at hf
      exact absurd (mem_toList.mp hf) (hsep.param a ha x (hc.leaves x hx).1 hsweep)
    · obtain ⟨c, hcc, hcp⟩ := mem_map.mp (mem_reverse.mp hmem)
      rw [← hcp, h.params c hcc, hcp]
      exact hunder.param k p i hp hi c hcc hcp
  · rw [hdeps] at hp
    exact hunder.point k p i hp hi

end Apart

/-! ## The top-level analyses -/

section Roots

variable {A : Analyses} {V : Type} {S : Setup A V} {children : ℕ → Option (List ℕ)}
  {cs l : ℕ → List ℕ}

structure Chains (A : Analyses) (children : ℕ → Option (List ℕ)) (cs l : ℕ → List ℕ) : Prop where
  chain : ∀ a ∈ A.actions, Chain A children a (cs a) (l a)
  short : ∀ a ∈ A.actions, (cs a).length ≤ A.actions.length

variable {s : Order}

theorem exists_chains (hs : A.Ordered s) (hdc : A.DcGiven s) :
    ∃ cs l, Chains A s.children cs l := by
  have h : ∀ a, ∃ cs l, a ∈ A.actions → Chain A s.children a cs l := by
    intro a
    by_cases ha : a ∈ A.actions
    · obtain ⟨cs, l, hchain⟩ := exists_chain hs hdc ha
      exact ⟨cs, l, fun _ => hchain⟩
    · exact ⟨[], [], fun h => absurd h ha⟩
  choose cs l h using h
  refine ⟨cs, l, h, fun a ha => ?_⟩
  have hchain := (h a ha).isChain
  exact (hchain.nodup.subperm fun c hc => (hchain.sweeps c hc).1).length_le

theorem Chain.initialize_returns {a : ℕ} {cs l : List ℕ} (h : Chain A children a cs l) :
    ∀ {fuel : ℕ}, cs.length < fuel → ∀ env,
      ∃ env', initializeAnalysis S children fuel env a = some env' := by
  induction h with
  | leaf _ hplain =>
    intro fuel hf env
    obtain ⟨n, rfl⟩ := Nat.exists_eq_succ_of_ne_zero (Nat.ne_zero_of_lt hf)
    exact ⟨env, by rw [initializeAnalysis, if_neg hplain]⟩
  | single _ hsweep hchildren _ _ ih =>
    intro fuel hf env
    obtain ⟨n, rfl⟩ := Nat.exists_eq_succ_of_ne_zero (Nat.ne_zero_of_lt hf)
    rw [initializeAnalysis, if_pos hsweep, hchildren]
    refine foldlM_returns (fun b hb env => ?_) _
    rw [mem_singleton.mp hb]
    exact ih (Nat.lt_of_succ_lt_succ hf) env
  | pair _ hsweep hchildren _ _ _ hdplain hxplain =>
    intro fuel hf env
    obtain ⟨n, rfl⟩ := Nat.exists_eq_succ_of_ne_zero (Nat.ne_zero_of_lt hf)
    obtain ⟨m, rfl⟩ := Nat.exists_eq_succ_of_ne_zero (Nat.ne_zero_of_lt (Nat.lt_of_succ_lt_succ hf))
    rw [initializeAnalysis, if_pos hsweep, hchildren]
    refine foldlM_returns (fun b hb env => ⟨env, ?_⟩) _
    rcases mem_cons.mp hb with rfl | hb
    · rw [initializeAnalysis, if_neg hdplain]
    · rw [mem_singleton.mp hb, initializeAnalysis, if_neg hxplain]

def Apart (cs l : ℕ → List ℕ) (r r' : ℕ) : Prop :=
  ∀ b, b ∈ cs r' ∨ b ∈ l r' → b ∉ cs r ∧ b ∉ l r

variable {fuel : ℕ}

/-- **Chains that have nothing in common** are each run as if alone. -/
theorem roots_done (hsep : S.Separate) (hchains : Chains A children cs l)
    (hf : A.actions.length < fuel) : ∀ {rs : List ℕ}, rs ⊆ A.actions → rs.Nodup →
      (∀ r ∈ rs, ∀ r' ∈ rs, r ≠ r' → Apart cs l r r') → ∀ {s : State V}, Sound S s →
      (∀ r ∈ rs, Untouched S (cs r) (l r) s) →
      ∃ t, rs.foldlM (fun s a => solve S children fuel a s) s = some t ∧
        (∀ r ∈ rs, Done S (cs r) (l r) t) ∧
        (∀ r' ∈ A.actions, (∀ r ∈ rs, Apart cs l r r') → Same S (cs r') (l r') s t) ∧
        ∀ n, (∀ r ∈ rs, ∀ x ∈ l r, n ∉ S.vars x) → t.data.vars n = s.data.vars n
  | [], _, _, _, s, _, _ => by
    refine ⟨s, rfl, fun r hr => absurd hr not_mem_nil, fun r' _ _ => ?_, fun n _ => rfl⟩
    exact ⟨fun _ _ => rfl, fun _ _ => rfl, fun _ _ _ _ => rfl, fun _ _ _ _ => rfl⟩
  | r :: rs, hsub, hnodup, hapart, s, sound, hs => by
    obtain ⟨hr, hsub⟩ := cons_subset.mp hsub
    obtain ⟨hrrs, hnodup⟩ := nodup_cons.mp hnodup
    have hchain := hchains.chain r hr
    obtain ⟨t, ht, heffect⟩ := solve_effect hsep hchain ((hchains.short r hr).trans_lt hf) sound
    have hl : ∀ x ∈ l r, x ∈ A.actions := fun x hx => (hchain.leaves hx).1
    have hother := fun r' hr' h => heffect.same hsep hchain.isChain (hchains.chain r' hr').isChain h
    have hne : ∀ r' ∈ rs, r ≠ r' := fun r' hr' heq => hrrs (heq ▸ hr')
    obtain ⟨u, hu, hdone, hsame, hkept⟩ := roots_done hsep hchains hf hsub hnodup
      (fun r₁ h₁ r₂ h₂ => hapart r₁ (mem_cons_of_mem r h₁) r₂ (mem_cons_of_mem r h₂))
      (heffect.toSaves.sound hl sound) fun r' hr' =>
        (hs r' (mem_cons_of_mem r hr')).of_same (hother r' (hsub hr')
          (hapart r mem_cons_self r' (mem_cons_of_mem r hr') (hne r' hr')))
    refine ⟨u, ?_, ?_, ?_, ?_⟩
    · rw [foldlM_cons, ht]
      exact hu
    · intro r' hr'
      rcases mem_cons.mp hr' with rfl | hr'
      · refine (heffect.done hsep hchain.isChain (hs r' mem_cons_self)).of_same
          (hsame r' hr fun r₁ h₁ => ?_)
        exact hapart r₁ (mem_cons_of_mem r' h₁) r' mem_cons_self (hne r₁ h₁).symm
      · exact hdone r' hr'
    · intro r' hr' h
      exact (hother r' hr' (h r mem_cons_self)).trans
        (hsame r' hr' fun r₁ h₁ => h r₁ (mem_cons_of_mem r h₁))
    · intro n hn
      rw [hkept n fun r₁ h₁ => hn r₁ (mem_cons_of_mem r h₁), heffect.kept n (hn r mem_cons_self)]

/-- If no analysis is under two sweeps, an analysis is below one top-level analysis
only. -/
theorem root_unique (hone : A.OneParent) {r r' b : ℕ} (hr : ¬∃ p, A.Under p r)
    (hr' : ¬∃ p, A.Under p r') (h : ReflTransGen A.Under r b) (h' : ReflTransGen A.Under r' b) :
    r = r' := by
  induction h with
  | refl =>
    rcases h'.cases_tail with heq | ⟨p, -, hp⟩
    · exact heq
    · exact absurd ⟨p, hp⟩ hr
  | tail _ hcb ih =>
    rcases h'.cases_tail with heq | ⟨p, hp, hpb⟩
    · exact absurd ⟨_, heq ▸ hcb⟩ hr'
    · exact ih (hone _ _ _ hpb hcb ▸ hp)

variable {r : ℕ}

theorem not_under (hr : ¬A.Leaves r) : ¬∃ p, A.Under p r := by
  rintro ⟨p, hp | ⟨hd, y, hy, hplain⟩⟩
  · exact hr (.inl ⟨p, hp⟩)
  · exact hr (.inr ⟨hd, p, y, hy, hplain⟩)

theorem apart_of_oneParent (hs : A.Ordered s) (hchains : Chains A s.children cs l)
    (hone : A.OneParent) {r r' : ℕ} (hr : r ∈ s.actions) (hr' : r' ∈ s.actions) (hne : r ≠ r') :
    Apart cs l r r' := by
  have hreach : ∀ q ∈ s.actions, ∀ b, b ∈ cs q ∨ b ∈ l q → ReflTransGen A.Under q b := by
    intro q hq b hb
    obtain ⟨hcs, hl⟩ := (hchains.chain q ((hs.top q).mp hq).1).reach hs
    rcases hb with hb | hb
    · exact ReflTransGen.mono (fun _ _ h => .inl h) q b (hcs b hb)
    · exact hl b hb
  have hroot := fun q hq => not_under ((hs.top q).mp hq).2
  intro b hb
  have hnot : ¬(b ∈ cs r ∨ b ∈ l r) := fun hb' =>
    hne (root_unique hone (hroot r hr) (hroot r' hr') (hreach r hr b hb') (hreach r' hr' b hb))
  exact not_or.mp hnot

theorem runAnalysis_eq_some {env : String → V} {d : Dataset V}
    (horder : orderAnalysis A.object fuel A.actions = some s) :
    runAnalysis S fuel env = some d ↔
      ∃ env', s.actions.foldlM (initializeAnalysis S s.children fuel) env = some env' ∧
      ∃ t, s.actions.foldlM (fun t a => solve S s.children fuel a t) (.initial env') = some t ∧
        t.data = d := by
  rw [runAnalysis, horder, bind_eq_bind, bind_some, bind_eq_bind, bind_eq_some_iff]
  simp only [Option.bind_eq_bind, Option.bind_eq_some_iff, Option.pure_def, Option.some.injEq]

theorem Sound.initial (env : String → V) : Sound S (.initial env) := fun _ _ h => nomatch h

/-- **Rectangular results**, if every sweep has its children and none is shared. -/
theorem rectangular_of_oneParent (hsep : S.Separate) (hs : A.Ordered s)
    (hdc : A.DcGiven s) (hone : A.OneParent) (hf : A.actions.length < fuel)
    (horder : orderAnalysis A.object fuel A.actions = some s) (env : String → V) :
    ∃ d, runAnalysis S fuel env = some d ∧ Rectangular S d := by
  obtain ⟨cs, l, hchains⟩ := exists_chains hs hdc
  have hsub : s.actions ⊆ A.actions := fun a ha => ((hs.top a).mp ha).1
  obtain ⟨env', henv'⟩ := foldlM_returns
    (fun a ha env => (hchains.chain a (hsub ha)).initialize_returns
      ((hchains.short a (hsub ha)).trans_lt hf) env) env
  obtain ⟨t, ht, hdone, -, hkept⟩ := roots_done hsep hchains hf hsub hs.nodup
    (fun r hr r' hr' => apart_of_oneParent hs hchains hone hr hr')
    (Sound.initial env')
    fun r _ => ⟨fun _ _ => rfl, fun _ _ => rfl, fun _ _ _ _ => rfl, fun _ _ _ _ => rfl⟩
  refine ⟨t.data, (runAnalysis_eq_some horder).mpr ⟨env', henv', t, ht, rfl⟩, fun n v hv => ?_⟩
  have hex : ∃ r ∈ s.actions, ∃ x ∈ l r, n ∈ S.vars x := by
    by_contra hno
    have hsame := hkept n fun r hr x hx hn => hno ⟨r, hr, x, hx, hn⟩
    exact nomatch hsame.symm.trans hv
  obtain ⟨r, hr, x, hx, hn⟩ := hex
  have hchain := (hchains.chain r (hsub hr)).isChain
  obtain ⟨horigin, hlength, hvalues⟩ := (hdone r hr).rectangular hsep hchain hx hn hv
  exact ⟨x, (hchain.leaves x hx).1, hn, horigin, hlength, hvalues⟩

end Roots

/-! ## Shared analyses -/

section Shared

variable {A : Analyses} {s : Order}

variable {a b : ℕ}

theorem Names.sweep_of_reach (h : ReflTransGen A.Names a b)
    (hb : (A.object b).type = .sweep) : (A.object a).type = .sweep := by
  rcases h.cases_head with rfl | ⟨c, hac, -⟩
  · exact hb
  · exact hac.sweep

theorem exists_root (A : Analyses) (a : ℕ) : ∃ r, ReflTransGen A.Names r a ∧ ∀ p, ¬A.Names p r := by
  have hwf : WellFounded A.Names := Lib.Walk.wellFounded_of_acyclic
    (fun _ _ h => h.child) fun x hx => A.acyclic x (transGen_swap.mp hx)
  induction a using hwf.induction with
  | _ a ih =>
    by_cases hp : ∃ p, A.Names p a
    · obtain ⟨p, hp⟩ := hp
      obtain ⟨r, hr, hroot⟩ := ih p hp
      exact ⟨r, hr.tail hp, hroot⟩
    · exact ⟨a, .refl, fun p hpa => hp ⟨p, hpa⟩⟩

theorem Analyses.Ordered.exists_top (hs : A.Ordered s) (ha : a ∈ A.actions)
    (hsweep : (A.object a).type = .sweep) : ∃ r ∈ s.actions, ReflTransGen A.Names r a := by
  obtain ⟨r, hra, hroot⟩ := exists_root A a
  have hrsweep := Names.sweep_of_reach hra hsweep
  refine ⟨r, (hs.top r).mpr ⟨?_, ?_⟩, hra⟩
  · rcases hra.cases_head with rfl | ⟨c, hrc, -⟩
    · exact ha
    · exact hrc.parent
  · rintro (⟨p, hp⟩ | ⟨hd, -⟩)
    · exact hroot p hp
    · exact absurd (hd.2.symm.trans hrsweep) (by decide)

theorem Chain.unique {children : ℕ → Option (List ℕ)} {cs l cs' l' : List ℕ}
    (h : Chain A children a cs l) (h' : Chain A children a cs' l') : cs = cs' ∧ l = l' := by
  induction h generalizing cs' l' with
  | leaf _ hplain =>
    obtain ⟨rfl, rfl⟩ := h'.leaf_eq hplain
    exact ⟨rfl, rfl⟩
  | single _ hsweep hchildren _ _ ih =>
    cases h' with
    | leaf _ hplain => exact absurd hsweep hplain
    | single _ _ hchildren' _ hb =>
      obtain rfl := (cons.inj (some.inj (hchildren.symm.trans hchildren'))).1
      obtain ⟨rfl, rfl⟩ := ih hb
      exact ⟨rfl, rfl⟩
    | pair _ _ hchildren' => exact nomatch some.inj (hchildren.symm.trans hchildren')
  | pair _ hsweep hchildren =>
    cases h' with
    | leaf _ hplain => exact absurd hsweep hplain
    | single _ _ hchildren' => exact nomatch some.inj (hchildren.symm.trans hchildren')
    | pair _ _ hchildren' =>
      cases some.inj (hchildren.symm.trans hchildren')
      exact ⟨rfl, rfl⟩

theorem Chain.leaves_ne {children : ℕ → Option (List ℕ)} {cs l : List ℕ}
    (h : Chain A children a cs l) : l ≠ [] := by
  induction h with
  | leaf => exact cons_ne_nil _ _
  | single _ _ _ _ _ ih => exact ih
  | pair => exact cons_ne_nil _ _

variable {cs l : ℕ → List ℕ}

variable (hs : A.Ordered s) (hchains : Chains A s.children cs l)
include hs hchains

theorem Chains.leaves_cases (h : A.Names a b) :
    A.below b = [b] ∧ l a = l b ∨ A.Plain b ∧ l a = A.below b := by
  have hchain := hchains.chain a h.parent
  generalize cs a = ca, l a = la at hchain ⊢
  cases hchain with
  | leaf _ hplain => exact absurd h.sweep hplain
  | single _ _ hchildren _ hc =>
    obtain ⟨x, hx, hbelow⟩ := hs.given a _ hchildren
    obtain rfl := below_eq_single hbelow.symm
    obtain rfl := hx.unique h
    exact .inl ⟨hbelow.symm, (hc.unique (hchains.chain _ h.child)).2⟩
  | pair _ _ hchildren =>
    obtain ⟨x, hx, hbelow⟩ := hs.given a _ hchildren
    obtain rfl := hx.unique h
    rcases below_cases x with hsingle | ⟨-, -, hplain, -⟩
    · exact nomatch hbelow.trans hsingle
    · exact .inr ⟨hplain, hbelow⟩

theorem Chains.leaves_of_sweep (h : A.Names a b) (hb : (A.object b).type = .sweep) : l a = l b :=
  (hchains.leaves_cases hs h).elim And.right fun hplain => absurd hb hplain.1.2

theorem Chains.leaves_of_reach (h : ReflTransGen A.Names a b) (hb : (A.object b).type = .sweep) :
    l a = l b := by
  induction h using ReflTransGen.head_induction_on with
  | refl => rfl
  | head hac hcb ih =>
    exact (hchains.leaves_of_sweep hs hac (Names.sweep_of_reach hcb hb)).trans ih

theorem Chains.leaves_of_plain {a y : ℕ} (h : A.Names a y) (hy : (A.object y).type ≠ .sweep) :
    l a = A.below y := by
  rcases hchains.leaves_cases hs h with ⟨hbelow, hl⟩ | ⟨-, hl⟩
  · rw [hl, hbelow, ((hchains.chain y h.child).leaf_eq hy).2]
  · exact hl

/-- **A shared analysis is below two top-level sweeps.** -/
theorem Chains.shared {p q x : ℕ} (hp : A.Under p x) (hq : A.Under q x) (hne : p ≠ q) :
    ∃ r ∈ s.actions, ∃ r' ∈ s.actions, r ≠ r' ∧ ∃ y, y ∈ l r ∧ y ∈ l r' := by
  have hnamed : ∀ a, A.Under a x → ∃ y, A.Names a y ∧ x ∈ A.below y ∧
      ((A.object x).type = .sweep ∨ (A.object y).type = .sweep → y = x) := by
    rintro a (hax | ⟨hd, y, hy, hplain⟩)
    · exact ⟨x, hax, (mem_below hax).mpr (.inl hax), fun _ => rfl⟩
    · refine ⟨y, hy, (mem_below hy).mpr (.inr ⟨hd, y, hy, hplain⟩), fun hor => ?_⟩
      rw [hd.2] at hor
      exact absurd (hor.resolve_left (by decide)) hplain.2
  obtain ⟨y, hpy, hxy, hy⟩ := hnamed p hp
  obtain ⟨z, hqz, hxz, hz⟩ := hnamed q hq
  obtain ⟨r, hr, hrp⟩ := hs.exists_top hpy.parent hpy.sweep
  obtain ⟨r', hr', hrq⟩ := hs.exists_top hqz.parent hqz.sweep
  have hapart : ∀ a b u w, a ≠ b → A.Names a u → A.Names b w →
      ((A.object x).type = .sweep ∨ (A.object u).type = .sweep → u = x) →
      ((A.object x).type = .sweep ∨ (A.object w).type = .sweep → w = x) →
      ¬ReflTransGen A.Names a b := by
    intro a b u w hab hau hbw hu hw h
    rcases h.cases_head with heq | ⟨c, hac, hcb⟩
    · exact hab heq
    obtain rfl := hac.unique hau
    have hsweep := Names.sweep_of_reach hcb hbw.sweep
    obtain rfl := hu (.inr hsweep)
    obtain rfl := hw (.inl hsweep)
    exact A.acyclic _ (TransGen.tail' hcb hbw)
  refine ⟨r, hr, r', hr', ?_, ?_⟩
  · rintro rfl
    have hunique : Relator.RightUnique A.Names := fun _ _ _ h h' => h.unique h'
    rcases ReflTransGen.total_of_right_unique hunique hrp hrq with h | h
    · exact hapart p q y z hne hpy hqz hy hz h
    · exact hapart q p z y hne.symm hqz hpy hz hy h
  · rw [hchains.leaves_of_reach hs hrp hpy.sweep, hchains.leaves_of_reach hs hrq hqz.sweep]
    by_cases hxs : (A.object x).type = .sweep
    · obtain rfl := hy (.inl hxs)
      obtain rfl := hz (.inl hxs)
      rw [hchains.leaves_of_sweep hs hpy hxs, hchains.leaves_of_sweep hs hqz hxs]
      obtain ⟨u, hu⟩ := exists_mem_of_ne_nil _ (hchains.chain _ hpy.child).leaves_ne
      exact ⟨u, hu, hu⟩
    · rw [hchains.leaves_of_plain hs hpy fun h => hxs (hy (.inr h) ▸ h),
        hchains.leaves_of_plain hs hqz fun h => hxs (hz (.inr h) ▸ h)]
      exact ⟨x, hxy, hxz⟩

end Shared

/-! ## One value everywhere -/

section Unit

variable {A : Analyses} {V : Type}

/-- Every sweep has one value, and every analysis one variable without points. -/
def unitSetup (A : Analyses) (v : V) : Setup A V where
  param a := (A.object a).name
  values _ := [v]
  indep _ := none
  vars a := [(A.object a).name]
  result _ _ _ _ := v
  param_inj a ha b hb _ _ h := A.name_inj a ha b hb h
  values_ne _ := List.cons_ne_nil _ _
  indep_ne _ _ _ h := nomatch h
  vars_nodup _ := List.nodup_singleton _

theorem unitSetup_separate (v : V) : (unitSetup A v).Separate where
  vars a ha b hb _ hna hnb := A.name_inj a ha b hb
    ((mem_singleton.mp hna).symm.trans (mem_singleton.mp hnb))
  indep _ _ _ _ _ h := nomatch h
  param _ _ _ _ _ h := nomatch h

theorem length_block_unit (v : V) (x : ℕ) (n : String) (cs : List ℕ) (env : String → V) :
    (block (unitSetup A v) x n cs env).length = 1 := by
  rw [length_block]
  refine prod_eq_one fun k hk => ?_
  rcases mem_append.mp hk with hk | hk
  · cases hk
  · obtain ⟨c, -, rfl⟩ := mem_map.mp (mem_reverse.mp hk)
    rfl

/-- The vectors of the parameters have at most one value, and the variables depend
on nothing else. -/
structure Small (A : Analyses) (v : V) (s : State V) : Prop where
  vectors : ∀ c ∈ A.actions, (A.object c).type = .sweep →
    (s.data.vector (A.object c).name).length = if s.runs c = 0 then 0 else 1
  deps : ∀ n w, s.data.vars n = some w → ∀ p ∈ w.deplist, ∃ c ∈ A.actions,
    (A.object c).type = .sweep ∧ p = (A.object c).name ∧ s.runs c ≠ 0

theorem Effect.small {v : V} {cs l : List ℕ} {added : ℕ → String → List V} {s t : State V}
    (h : Effect (unitSetup A v) cs l (cs.map (unitSetup A v).param).reverse added s t)
    (hc : IsChain A cs l) (hs : Small A v s) : Small A v t := by
  have hruns : ∀ c, s.runs c ≠ 0 → t.runs c ≠ 0 := by
    intro c hrun
    by_cases hcc : c ∈ cs ∨ c ∈ l
    · exact h.ran c hcc
    · rw [h.idle c (not_or.mp hcc).1 (not_or.mp hcc).2]
      exact hrun
  constructor
  case vectors =>
    intro c hca hsweep
    by_cases hcc : c ∈ cs
    · have hparams := congrArg length (h.params c hcc)
      rw [length_append] at hparams
      refine hparams.trans ?_
      rw [if_neg (h.ran c (.inl hcc))]
      have hvector := hs.vectors c hca hsweep
      change (s.data.vector (A.object c).name).length + _ = 1
      rw [hvector]
      split <;> rfl
    · have hcl : c ∉ l := fun hcl => (hc.leaves c hcl).2 hsweep
      rw [h.idle c hcc hcl, ← hs.vectors c hca hsweep]
      refine congrArg length (h.others _ (fun hmem => ?_) fun x _ hx => nomatch hx)
      obtain ⟨b, hb, heq⟩ := mem_map.mp hmem
      exact hcc (A.name_inj b (hc.sweeps b hb).1 c hca heq ▸ hb)
  case deps =>
    intro n w hw p hp
    by_cases hn : ∃ x ∈ l, n ∈ (unitSetup A v).vars x
    · obtain ⟨x, hx, hnx⟩ := hn
      obtain ⟨w', hw', -, -, hdeps⟩ := h.saved x hx n hnx
      obtain rfl := some.inj (hw.symm.trans hw')
      rw [hdeps, mem_extend] at hp
      rcases hp with hp | hp
      · rw [depsOf] at hp
        split at hp
        · next w₀ hw₀ =>
          obtain ⟨c, hca, hsweep, hpc, hrun⟩ := hs.deps n w₀ hw₀ p hp
          exact ⟨c, hca, hsweep, hpc, hruns c hrun⟩
        · cases hp
      · obtain ⟨c, hcc, hpc⟩ := mem_map.mp (mem_reverse.mp hp)
        exact ⟨c, (hc.sweeps c hcc).1, (hc.sweeps c hcc).2, hpc.symm, h.ran c (.inl hcc)⟩
    · rw [h.kept n fun x hx hnx => hn ⟨x, hx, hnx⟩] at hw
      obtain ⟨c, hca, hsweep, hpc, hrun⟩ := hs.deps n w hw p hp
      exact ⟨c, hca, hsweep, hpc, hruns c hrun⟩

theorem Small.prod_sizes {v : V} {s : State V} (h : Small A v s) {n : String} {w : Variable V}
    (hw : s.data.vars n = some w) : (s.data.sizes w).prod = 1 := by
  refine prod_eq_one fun k hk => ?_
  obtain ⟨p, hp, rfl⟩ := mem_map.mp hk
  obtain ⟨c, hca, hsweep, rfl, hrun⟩ := h.deps n w hw p hp
  rw [h.vectors c hca hsweep, if_neg hrun]

/-- Every chain an analysis is at the end of adds a value to its variable. -/
theorem roots_count {children : ℕ → Option (List ℕ)} {cs l : ℕ → List ℕ}
    (hchains : Chains A children cs l) (v : V) {y : ℕ} (hy : y ∈ A.actions) {fuel : ℕ}
    (hf : A.actions.length < fuel) : ∀ {rs : List ℕ}, rs ⊆ A.actions → ∀ {s : State V},
      Sound (unitSetup A v) s → Small A v s →
      ∃ t, rs.foldlM (fun s a => solve (unitSetup A v) children fuel a s) s = some t ∧
        Small A v t ∧ (t.valuesOf (A.object y).name).length =
          (s.valuesOf (A.object y).name).length + (rs.filter (y ∈ l ·)).length
  | [], _, s, _, hs => ⟨s, rfl, hs, rfl⟩
  | r :: rs, hsub, s, sound, hs => by
    obtain ⟨hr, hsub⟩ := cons_subset.mp hsub
    have hchain := hchains.chain r hr
    obtain ⟨t, ht, heffect⟩ := solve_effect (unitSetup_separate v) hchain
      ((hchains.short r hr).trans_lt hf) sound
    obtain ⟨u, hu, husmall, hulen⟩ := roots_count hchains v hy hf hsub
      (heffect.toSaves.sound (fun x hx => (hchain.leaves hx).1) sound)
      (heffect.small hchain.isChain hs)
    refine ⟨u, ?_, husmall, ?_⟩
    · rw [foldlM_cons, ht]
      exact hu
    rw [hulen, filter_cons]
    by_cases hyr : y ∈ l r
    · obtain ⟨w, hw, -, hvalues, -⟩ := heffect.saved y hyr (A.object y).name
        (mem_singleton_self _)
      have hlen : (t.valuesOf (A.object y).name).length =
          (s.valuesOf (A.object y).name).length + 1 := by
        rw [State.valuesOf, hw]
        show w.values.length = _
        rw [hvalues, length_append, length_block_unit]
      simp only [hyr, decide_true, if_true, length_cons]
      omega
    · have hkept := heffect.kept (A.object y).name fun x hx hnx => hyr
        (A.name_inj y hy x (hchain.leaves hx).1 (mem_singleton.mp hnx) ▸ hx)
      simp only [hyr, decide_false, State.valuesOf, hkept]
      rfl

end Unit

/-! ## The condition -/

section Condition

variable {A : Analyses} {V : Type}

variable {s : Order}

/-- A sweep without children has no result, nor has any sweep above it. -/
theorem solve_none {S : Setup A V} (hs : A.Ordered s) {a : ℕ} (hsweep : (A.object a).type = .sweep)
    (hnone : s.children a = none) {r : ℕ} (h : ReflTransGen A.Names r a) :
    ∀ (fuel : ℕ) (t : State V), solve S s.children fuel r t = none := by
  induction h using ReflTransGen.head_induction_on with
  | refl =>
    intro fuel t
    cases fuel with
    | zero => rfl
    | succ fuel =>
      rw [solve, if_pos hsweep, hnone]
      rfl
  | @head r b hrb hba ih =>
    intro fuel t
    cases fuel with
    | zero => rfl
    | succ fuel =>
      rw [solve, if_pos hrb.sweep]
      cases hchildren : s.children r with
      | none => rfl
      | some actions =>
        obtain ⟨x, hx, rfl⟩ := hs.given r actions hchildren
        rw [hx.unique hrb, below, if_neg fun hplain => hplain.2 (Names.sweep_of_reach hba hsweep)]
        obtain ⟨v, hv⟩ := exists_mem_of_ne_nil _ (S.values_ne r)
        refine foldlM_none hv (fun u => ?_) _
        rw [solvePoint, solveChildren]
        refine foldlM_none (mem_singleton_self b) (fun w => ?_) _
        rw [ih]
        rfl

/-- A sweep that did not get the DC analysis stops the run. -/
theorem dcGiven_of_returns {S : Setup A V} (hs : A.Ordered s) {fuel : ℕ} {t u : State V}
    (ht : s.actions.foldlM (fun t a => solve S s.children fuel a t) u = some t) : A.DcGiven s := by
  intro a d hnames hd
  cases hchildren : s.children a with
  | some actions =>
    obtain ⟨x, hx, rfl⟩ := hs.given a actions hchildren
    rw [hx.unique hnames, below_dc hd]
  | none =>
    obtain ⟨r, hr, hra⟩ := hs.exists_top hnames.parent hnames.sweep
    have hstop := foldlM_none (f := fun t a => solve S s.children fuel a t) hr
      (fun t => solve_none hs hnames.sweep hchildren hra fuel t) u
    exact nomatch hstop.symm.trans ht

/-- A shared analysis is run twice, with one value everywhere. -/
theorem oneParent_of_rectangular (hs : A.Ordered s) (hdc : A.DcGiven s) {fuel : ℕ}
    (hf : A.actions.length < fuel) {v : V} {env : String → V} {t : State V}
    (ht : s.actions.foldlM (fun t a => solve (unitSetup A v) s.children fuel a t)
      (.initial env) = some t)
    (hrect : Rectangular (unitSetup A v) t.data) : A.OneParent := by
  intro p q x hp hq
  by_contra hne
  obtain ⟨cs, l, hchains⟩ := exists_chains hs hdc
  obtain ⟨r, hr, r', hr', hrr', y, hyr, hyr'⟩ := hchains.shared hs hp hq hne
  have hsub : s.actions ⊆ A.actions := fun a ha => ((hs.top a).mp ha).1
  have hy := ((hchains.chain r (hsub hr)).leaves hyr).1
  obtain ⟨t', ht', hsmall, hlen⟩ := roots_count hchains v hy hf hsub (Sound.initial env)
    ⟨fun _ _ _ => rfl, fun n w hw => nomatch hw⟩
  obtain rfl := some.inj (ht.symm.trans ht')
  have htwo : 2 ≤ (t.valuesOf (A.object y).name).length := by
    have hpair : [r, r'].Subperm (s.actions.filter (y ∈ l ·)) := by
      refine List.Nodup.subperm (by simp [hrr']) fun a ha => ?_
      rcases mem_cons.mp ha with rfl | ha
      · simp [hr, hyr]
      · rw [mem_singleton.mp ha]
        simp [hr', hyr']
    rw [hlen]
    exact hpair.length_le.trans (Nat.le_add_left _ _)
  cases hw : t.data.vars (A.object y).name with
  | none =>
    rw [State.valuesOf, hw] at htwo
    exact absurd htwo (Nat.not_succ_le_zero 1)
  | some w =>
    obtain ⟨-, -, -, -, hlength, -⟩ := hrect _ w hw
    rw [hsmall.prod_sizes hw] at hlength
    rw [State.valuesOf, hw] at htwo
    change 2 ≤ w.values.length at htwo
    omega

/-- **The results of all runs are rectangular iff** every sweep over the DC
analysis gets it, and no analysis is under two sweeps. -/
theorem rectangular_iff (A : Analyses) {fuel : ℕ} (hf : A.actions.length < fuel)
    (env : String → V) :
    (∀ S : Setup A V, S.Separate → ∃ d, runAnalysis S fuel env = some d ∧ Rectangular S d) ↔
      A.DcFirst ∧ A.OneParent := by
  obtain ⟨s, horder, hs, hdciff⟩ := orderAnalysis_ordered A hf
  constructor
  · intro h
    obtain ⟨d, hd, hrect⟩ := h (unitSetup A (env "")) (unitSetup_separate _)
    obtain ⟨env', -, t, ht, rfl⟩ := (runAnalysis_eq_some horder).mp hd
    have hdc := dcGiven_of_returns hs ht
    exact ⟨hdciff.mp hdc, oneParent_of_rectangular hs hdc hf ht hrect⟩
  · rintro ⟨hdc, hone⟩ S hsep
    exact rectangular_of_oneParent hsep hs (hdciff.mpr hdc) hone hf horder env

/-- Two sweeps over different analyses, both of which need the DC analysis. -/
def sharedObjects : ℕ → Analysis
  | 0 => { name := "SW1", type := .sweep, sim := "AC1" }
  | 1 => { name := "SW2", type := .sweep, sim := "SP1" }
  | 2 => { name := "AC1", type := .ac }
  | 3 => { name := "SP1", type := .sparameter }
  | _ => { name := "DC1", type := .dc }

def shared : Analyses where
  object := sharedObjects
  actions := [0, 1, 2, 3, 4]
  nodup := by decide
  name_inj := by decide
  dc_unique := by decide
  exists_sim a ha hsweep := by
    have h : ∀ a ∈ [0, 1, 2, 3, 4], (sharedObjects a).type = .sweep →
        ∃ b ∈ [0, 1, 2, 3, 4], Names sharedObjects [0, 1, 2, 3, 4] a b := by decide
    obtain ⟨b, -, hb⟩ := h a ha hsweep
    exact ⟨b, hb⟩
  acyclic := acyclic_of_lt _ (by decide)

/-- The first sweep has three values, the second two. -/
def sharedSetup : Setup shared ℕ where
  param a := if a = 0 then "R1" else "C1"
  values a := if a = 0 then [1, 2, 3] else [4, 5]
  indep
    | 2 => some ("acfrequency", [10, 20])
    | 3 => some ("frequency", [10])
    | _ => none
  vars
    | 2 => ["out.v"]
    | 3 => ["S[1,1]"]
    | 4 => ["out.V"]
    | _ => []
  result _ env _ j := env "R1" + env "C1" + j
  param_inj := by decide
  values_ne a := by split <;> simp
  indep_ne a f points h := by split at h <;> cases h <;> simp
  vars_nodup a := by split <;> simp

theorem rectangular_shared : shared.actions.length < 6 ∧
    ((∀ S : Setup shared ℕ, S.Separate →
      ∃ d, runAnalysis S 6 (fun _ => 0) = some d ∧ Rectangular S d) ↔
        shared.DcFirst ∧ shared.OneParent) :=
  ⟨by decide, rectangular_iff shared (by decide) fun _ => 0⟩

theorem sharedSetup_separate : sharedSetup.Separate := by
  constructor
  case vars =>
    have h : ∀ a ∈ shared.actions, ∀ b ∈ shared.actions, ∀ n ∈ sharedSetup.vars a,
        n ∈ sharedSetup.vars b → a = b := by decide
    exact fun a ha b hb n hna hnb => h a ha b hb n hna hnb
  case indep =>
    have h : ∀ a ∈ shared.actions, ∀ b ∈ shared.actions, (sharedSetup.indepName a).isSome →
        sharedSetup.indepName a = sharedSetup.indepName b → a = b := by decide
    exact fun a ha b hb f hfa hfb => h a ha b hb (by rw [hfa]; rfl) (hfa.trans hfb.symm)
  case param =>
    have h : ∀ a ∈ shared.actions, ∀ b ∈ shared.actions,
        sharedSetup.indepName b ≠ some (sharedSetup.param a) := by decide
    exact fun a ha b hb _ => h a ha b hb

/-- The DC analysis is run five times and not six. -/
theorem shared_not_rectangular : sharedSetup.Separate ∧
    ¬∃ d, runAnalysis sharedSetup 6 (fun _ => 0) = some d ∧ Rectangular sharedSetup d := by
  refine ⟨sharedSetup_separate, ?_⟩
  rintro ⟨d, hd, hrect⟩
  have hsizes : (runAnalysis sharedSetup 6 fun _ => 0).map (fun d => (d.vars "out.V").map fun v =>
      (v.values.length, d.sizes v)) = some (some (5, [2, 3])) := by decide
  rw [hd] at hsizes
  cases hv : d.vars "out.V" with
  | none => simp [hv] at hsizes
  | some v =>
    obtain ⟨-, -, -, -, hlength, -⟩ := hrect "out.V" v hv
    simp only [hv, map_some, some.injEq, Prod.mk.injEq] at hsizes
    rw [hsizes.1, hsizes.2] at hlength
    exact absurd hlength (by decide)

end Condition

end Qucs.Sweeps
