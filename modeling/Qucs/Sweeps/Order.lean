/-
# The analyses and their nesting

`net.cpp`, `analysis.cpp`. A parameter sweep names
the analysis it runs. Before the analyses are run the list of them is turned
into a forest: an analysis that a sweep names becomes a child of that sweep, and
the DC analysis, which the others start from, goes with it.

* net::sortChildAnalyses: `sortAnalyses`, `sortChildAnalyses`
* net::orderAnalysis: `orderPass`, `orderLoop`, `orderAnalysis`

One pass takes an analysis from the list and gives it to every sweep that names
it; a sweep is taken only when what it names is gone. The DC analysis is taken
from the list a second way, together with the first analysis that needs it, and
the sweeps that name the DC analysis itself then do not find it any more.
`orderAnalysis_nested_iff` says when this happens.
-/
import Mathlib.Data.List.Sublists
import Qucs.Lib.Walk
import Qucs.Lib.Fold

namespace Qucs.Sweeps

open Relation List Option

/-! ## Analyses -/

inductive AnalysisType where
  | unknown | sweep | dc | ac | hbalance | transient | sparameter | eTransient
  deriving DecidableEq, Repr

/-- An analysis with its property `Sim`, which only a sweep has. -/
structure Analysis where
  name : String
  type : AnalysisType
  sim : String := ""
  deriving Repr

/-- What changes while the analyses are ordered: the list, the children of each
analysis (which may have no list of them yet) and the counter of the DC
analysis. -/
structure Order where
  actions : List ℕ
  children : ℕ → Option (List ℕ)
  dcApplied : ℕ

namespace Order

variable (s : Order) (a b : ℕ)

def removeAnalysis : Order := { s with actions := s.actions.filter (· ≠ a) }

def addAnalysis : Order :=
  { s with children := Function.update s.children a (some (b :: (s.children a).getD [])) }

def childList : List ℕ := (s.children a).getD []

@[simp] theorem addAnalysis_actions : (s.addAnalysis a b).actions = s.actions := rfl

@[simp] theorem addAnalysis_dcApplied : (s.addAnalysis a b).dcApplied = s.dcApplied := rfl

@[simp] theorem removeAnalysis_children : (s.removeAnalysis a).children = s.children := rfl

theorem mem_removeAnalysis : b ∈ (s.removeAnalysis a).actions ↔ b ∈ s.actions ∧ b ≠ a := by
  simp [removeAnalysis]

theorem addAnalysis_children (c : ℕ) : (s.addAnalysis a b).children c =
    if c = a then some (b :: s.childList c) else s.children c := by
  show Function.update s.children a _ c = _
  rw [Function.update_apply]
  split
  case isTrue h => rw [h, childList]
  case isFalse => rfl

theorem mem_childList {s : Order} {a b : ℕ} :
    b ∈ s.childList a ↔ ∃ l, s.children a = some l ∧ b ∈ l := by
  rw [childList]
  cases s.children a <;> simp

@[simp] theorem addAnalysis_childList : (s.addAnalysis a b).childList a = b :: s.childList a := by
  rw [childList, addAnalysis_children, if_pos rfl, getD_some]

end Order

section Model

variable (object : ℕ → Analysis)

variable (actions : List ℕ)

/-- The first one of a name. -/
def findAnalysis (n : String) : Option ℕ :=
  actions.find? fun a => (object a).name = n

/-- The first one of a type. -/
def findAnalysisType (type : AnalysisType) : Option ℕ :=
  actions.find? fun a => (object a).type = type

def getChild (parent : ℕ) : Option String :=
  if (object parent).type = .sweep then some (object parent).sim else none

def getChildAnalysis (parent : ℕ) : Option ℕ :=
  (getChild object parent).bind (findAnalysis object actions)

/-- A sweep whose child can be taken: it is no sweep, or its own child is no
longer in the list. -/
def isSecondOrder (a : ℕ) : Bool :=
  (object a).type = .sweep && match getChildAnalysis object actions a with
    | none => false
    | some child =>
      (object child).type ≠ .sweep || (getChildAnalysis object actions child).isNone

def findSecondOrder : Option ℕ := actions.find? (isSecondOrder object actions)

/-- The first child that is of the type or a sweep decides. -/
def containsAnalysis (children : ℕ → Option (List ℕ)) (type : AnalysisType) : ℕ → ℕ → Option Bool
  | 0, _ => none
  | fuel + 1, child =>
    match ((children child).getD []).find? fun a =>
        (object a).type = type ∨ (object a).type = .sweep with
    | none => some false
    | some a => if (object a).type = type then some true else containsAnalysis children type fuel a

/-- An analysis that is, or contains, the DC analysis goes to the front. -/
def inFront (fuel : ℕ) (children : ℕ → Option (List ℕ)) (a : ℕ) : Option Bool :=
  if (object a).type = .dc then some true else containsAnalysis object children .dc fuel a

/-- The loop of `sortChildAnalyses`. An element is put in front when the iterator
has passed it, so every element is met once. -/
def sortAnalyses (fuel : ℕ) (children : ℕ → Option (List ℕ)) (alist : List ℕ) : Option (List ℕ) :=
  alist.foldlM (fun sorted a => (inFront object fuel children a).map fun front =>
    if front then a :: sorted.filter (· ≠ a) else sorted) alist

/-- The children of an analysis are sorted. -/
def sortChildAnalyses (fuel : ℕ) (s : Order) (parent : ℕ) : Option Order :=
  match s.children parent with
  | none => some s
  | some alist => do
      let sorted ← sortAnalyses object fuel s.children alist
      return { s with children := Function.update s.children parent (some sorted) }

/-- The body of the loop that gives `child` to its parents. -/
def applyChild (dc : Option ℕ) (child : ℕ) (s : Order) (a : ℕ) : Order :=
  if getChild object a = some (object child).name then
    let s := s.addAnalysis a child
    match dc with
    | some dc =>
      if (object child).type ≠ .dc ∧ (object child).type ≠ .sweep then
        let s := if s.dcApplied = 0 then s.removeAnalysis dc else s
        { s.addAnalysis a dc with dcApplied := s.dcApplied + 1 }
      else s
    | none => s
  else s

/-- One round of `orderAnalysis`. Removing the DC analysis while the list is gone
through changes nothing for the rest of it: it is no sweep. -/
def orderPass (fuel : ℕ) (dc : Option ℕ) (s : Order) (parent : ℕ) : Option Order := do
  let child ← getChildAnalysis object s.actions parent
  let s := s.removeAnalysis child
  let s := s.actions.foldl (applyChild object dc child) s
  s.actions.foldlM (sortChildAnalyses object fuel) s

/-- The loop of `orderAnalysis`. -/
def orderLoop (fuel : ℕ) (dc : Option ℕ) : ℕ → Order → Option Order
  | 0, _ => none
  | n + 1, s =>
    match findSecondOrder object s.actions with
    | none => some s
    | some parent => do orderLoop fuel dc n (← orderPass object fuel dc s parent)

/-- The analyses below each other, and sorted. -/
def orderAnalysis (fuel : ℕ) (actions : List ℕ) : Option Order := do
  let dc := findAnalysisType object actions .dc
  let s ← orderLoop object fuel dc fuel ⟨actions, fun _ => none, 0⟩
  let sorted ← sortAnalyses object fuel s.children s.actions
  return { s with actions := sorted }

structure Names (actions : List ℕ) (a b : ℕ) : Prop where
  parent : a ∈ actions
  child : b ∈ actions
  sweep : (object a).type = .sweep
  sim : (object a).sim = (object b).name

instance (actions : List ℕ) (a b : ℕ) : Decidable (Names object actions a b) :=
  decidable_of_iff (a ∈ actions ∧ b ∈ actions ∧ (object a).type = .sweep ∧
      (object a).sim = (object b).name)
    ⟨fun ⟨ha, hb, hsweep, hsim⟩ => ⟨ha, hb, hsweep, hsim⟩,
      fun ⟨ha, hb, hsweep, hsim⟩ => ⟨ha, hb, hsweep, hsim⟩⟩

theorem acyclic_of_lt {actions : List ℕ}
    (h : ∀ a ∈ actions, ∀ b ∈ actions, Names object actions a b → a < b) (a : ℕ) :
    ¬TransGen (Names object actions) a a := by
  intro hcycle
  have hlt : ∀ b, TransGen (Names object actions) a b → a < b := by
    intro b hb
    induction hb with
    | single hab => exact h _ hab.parent _ hab.child hab
    | tail _ hbc ih => exact ih.trans (h _ hbc.parent _ hbc.child hbc)
  exact absurd (hlt a hcycle) (Nat.lt_irrefl a)

end Model

/-- The registered analyses: uniquely named, at most one of them the DC analysis,
and with references that name existing analyses and have no cycle. -/
structure Analyses where
  object : ℕ → Analysis
  actions : List ℕ
  nodup : actions.Nodup
  name_inj : ∀ a ∈ actions, ∀ b ∈ actions, (object a).name = (object b).name → a = b
  dc_unique : ∀ a ∈ actions, ∀ b ∈ actions, (object a).type = .dc → (object b).type = .dc → a = b
  exists_sim : ∀ a ∈ actions, (object a).type = .sweep → ∃ b, Names object actions a b
  acyclic : ∀ a, ¬TransGen (Names object actions) a a

namespace Analyses

variable (A : Analyses)

def Names (a b : ℕ) : Prop := Sweeps.Names A.object A.actions a b

def IsDc (a : ℕ) : Prop := a ∈ A.actions ∧ (A.object a).type = .dc

/-- Neither a sweep nor the DC analysis. -/
def Plain (a : ℕ) : Prop := (A.object a).type ≠ .dc ∧ (A.object a).type ≠ .sweep

/-- A sweep names the analysis, or it is the DC analysis and a sweep names one
that needs it. -/
def Leaves (a : ℕ) : Prop :=
  (∃ p, A.Names p a) ∨ A.IsDc a ∧ ∃ p x, A.Names p x ∧ A.Plain x

/-- `x` belongs under the sweep `a`. -/
def Under (a x : ℕ) : Prop := A.Names a x ∨ A.IsDc x ∧ ∃ y, A.Names a y ∧ A.Plain y

/-- The proper nesting. -/
structure Nested (s : Order) : Prop where
  top : ∀ a, a ∈ s.actions ↔ a ∈ A.actions ∧ ¬A.Leaves a
  children : ∀ a x, x ∈ s.childList a ↔ A.Under a x
  dc_first : ∀ a x, x ∈ s.childList a → A.IsDc x → (s.childList a).head? = some x
  once : s.actions.Nodup ∧ ∀ a, (s.childList a).Nodup

/-- If a sweep names the DC analysis, one does so before any sweep that names
another analysis than a sweep. -/
def DcFirst : Prop :=
  ∀ a d, A.Names a d → A.IsDc d →
    ∀ l p m x, A.actions = l ++ p :: m → A.Names p x → A.Plain x → ∃ q ∈ l, A.Names q d

/-! ## Finding analyses -/

section Find

variable {A}

variable {l : List ℕ} {x : ℕ}

theorem find?_unique {q : ℕ → Bool} (hx : x ∈ l) (hq : q x)
    (unique : ∀ y ∈ l, q y → y = x) : l.find? q = some x := by
  have hsome := find?_isSome.mpr ⟨x, hx, hq⟩
  obtain ⟨y, hy⟩ := isSome_iff_exists.mp hsome
  rw [hy, unique y (mem_of_find?_eq_some hy) (find?_some hy)]

theorem Names.unique {a x y : ℕ} (hx : A.Names a x) (hy : A.Names a y) : x = y :=
  A.name_inj x hx.child y hy.child (hx.sim.symm.trans hy.sim)

theorem wellFounded_names (A : Analyses) : WellFounded (flip A.Names) :=
  Lib.Walk.wellFounded_of_acyclic (fun _ _ h => h.parent) A.acyclic

variable {a : ℕ}

theorem IsDc.unique (ha : A.IsDc a) (hx : A.IsDc x) : a = x := A.dc_unique a ha.1 x hx.1 ha.2 hx.2

theorem getChild_eq (ha : a ∈ A.actions) (hx : x ∈ A.actions) :
    getChild A.object a = some (A.object x).name ↔ A.Names a x := by
  rw [getChild]
  constructor
  · intro h
    split at h
    case isTrue hsweep => exact ⟨ha, hx, hsweep, some.inj h⟩
    case isFalse => cases h
  · intro h
    rw [if_pos h.sweep, h.sim]

theorem getChildAnalysis_eq (hl : l ⊆ A.actions) (ha : a ∈ A.actions) :
    getChildAnalysis A.object l a = some x ↔ A.Names a x ∧ x ∈ l := by
  rw [getChildAnalysis, bind_eq_some_iff]
  constructor
  · rintro ⟨n, hn, hfind⟩
    have hx : x ∈ l := mem_of_find?_eq_some hfind
    have hname : (A.object x).name = n := by simpa using find?_some hfind
    exact ⟨(getChild_eq ha (hl hx)).mp (by rw [hn, hname]), hx⟩
  · rintro ⟨hnames, hx⟩
    refine ⟨_, (getChild_eq ha (hl hx)).mpr hnames, ?_⟩
    refine find?_unique hx (by simp) fun y hy hname => ?_
    exact A.name_inj y (hl hy) x (hl hx) (by simpa using hname)

theorem isSecondOrder_iff (hl : l ⊆ A.actions) (ha : a ∈ A.actions) :
    isSecondOrder A.object l a ↔ ∃ x ∈ l, A.Names a x ∧
      ((A.object x).type ≠ .sweep ∨ ∀ y, A.Names x y → y ∉ l) := by
  have hnone : ∀ x ∈ l, getChildAnalysis A.object l x = none ↔ ∀ y, A.Names x y → y ∉ l := by
    intro x hx
    rw [eq_none_iff_forall_ne_some]
    refine forall_congr' fun y => ?_
    rw [Ne, getChildAnalysis_eq hl (hl hx), not_and]
  rw [isSecondOrder, Bool.and_eq_true, decide_eq_true_iff]
  constructor
  · rintro ⟨hsweep, h⟩
    split at h
    · cases h
    · next x hx =>
      obtain ⟨hnames, hmem⟩ := (getChildAnalysis_eq hl ha).mp hx
      refine ⟨x, hmem, hnames, ?_⟩
      rwa [Bool.or_eq_true, decide_eq_true_iff, isNone_iff_eq_none, hnone x hmem] at h
  · rintro ⟨x, hmem, hnames, h⟩
    refine ⟨hnames.sweep, ?_⟩
    rw [(getChildAnalysis_eq hl ha).mpr ⟨hnames, hmem⟩]
    rwa [Bool.or_eq_true, decide_eq_true_iff, isNone_iff_eq_none, hnone x hmem]

variable (A) in
/-- The DC analysis, as the ordering looks it up. -/
def dc : Option ℕ := findAnalysisType A.object A.actions .dc

theorem dc_eq {d : ℕ} : A.dc = some d ↔ A.IsDc d := by
  constructor
  · intro h
    exact ⟨mem_of_find?_eq_some h, by simpa using find?_some h⟩
  · rintro ⟨hmem, htype⟩
    refine find?_unique hmem (by simpa using htype) fun e he hetype => ?_
    exact A.dc_unique e he d hmem (by simpa using hetype) htype

end Find

/-! ## One pass -/

section Pass

/-- What a sweep that names `x` has below it. -/
def below (x : ℕ) : List ℕ :=
  if (A.object x).type ≠ .dc ∧ (A.object x).type ≠ .sweep then A.dc.toList ++ [x] else [x]

/-- What holds between the passes: children are given when what is named leaves
the list, and a sweep stays as long as the analysis it names. -/
structure Inv (s : Order) : Prop where
  sublist : s.actions.Sublist A.actions
  given : ∀ a l, s.children a = some l → ∃ x, A.Names a x ∧ x ∉ s.actions ∧ l = A.below x
  waits : ∀ a x, A.Names a x → x ∈ s.actions → a ∈ s.actions ∧ s.children a = none
  parents : ∀ a x, A.Names a x → x ∉ s.actions → ¬A.IsDc x → s.children a = some (A.below x)
  left : ∀ a ∈ A.actions, a ∉ s.actions → A.Leaves a
  needs : ∀ p x, A.Names p x → A.Plain x → x ∉ s.actions → ∀ d, A.IsDc d → d ∉ s.actions
  applied : s.dcApplied ≠ 0 → ∀ d, A.IsDc d → d ∉ s.actions

structure Pass (s s' : Order) (child : ℕ) : Prop where
  parent : ∃ p, findSecondOrder A.object s.actions = some p ∧ A.Names p child
  mem : child ∈ s.actions
  sublist : s'.actions.Sublist s.actions
  actions : ∀ b, b ∈ s'.actions ↔ b ∈ s.actions ∧ b ≠ child ∧ ¬(A.Plain child ∧ A.IsDc b)
  children : ∀ a, A.Names a child ∧ s'.children a = some (A.below child) ∨
    ¬A.Names a child ∧ s'.children a = s.children a
  applied : s'.dcApplied ≠ 0 → ∀ d, A.IsDc d → d ∉ s'.actions

variable {A}

theorem below_cases (x : ℕ) :
    A.below x = [x] ∨ ∃ d, A.IsDc d ∧ A.Plain x ∧ d ≠ x ∧ A.below x = [d, x] := by
  rw [below]
  split
  case isFalse => exact .inl rfl
  case isTrue hplain =>
    cases hdc : A.dc with
    | none => exact .inl rfl
    | some d =>
      have hd := dc_eq.mp hdc
      exact .inr ⟨d, hd, hplain, fun heq => hplain.1 (heq ▸ hd.2), rfl⟩

theorem mem_below {a x y : ℕ} (h : A.Names a x) : y ∈ A.below x ↔ A.Under a y := by
  have hunder : A.Under a y ↔ y = x ∨ A.IsDc y ∧ A.Plain x := by
    constructor
    · rintro (hy | ⟨hdc, z, hz, hplain⟩)
      · exact .inl (hy.unique h)
      · exact .inr ⟨hdc, hz.unique h ▸ hplain⟩
    · rintro (rfl | ⟨hdc, hplain⟩)
      · exact .inl h
      · exact .inr ⟨hdc, x, h, hplain⟩
  rw [hunder, below]
  split
  case isTrue hplain =>
    rw [mem_append, mem_singleton, mem_toList, dc_eq, or_comm]
    exact or_congr_right ⟨fun hdc => ⟨hdc, hplain⟩, And.left⟩
  case isFalse hplain =>
    rw [mem_singleton]
    exact ⟨.inl, fun hor => hor.resolve_right fun h => hplain h.2⟩

theorem Inv.initial : A.Inv ⟨A.actions, fun _ => none, 0⟩ where
  sublist := .refl _
  given _ _ h := nomatch h
  waits _ _ h _ := ⟨h.parent, rfl⟩
  parents _ _ h hx _ := absurd h.child hx
  left _ ha h := absurd ha h
  needs _ _ h _ hx _ _ := absurd h.child hx
  applied h := absurd rfl h

/-- **A pass keeps the invariant.** -/
theorem Pass.inv {s s' : Order} {child : ℕ} (h : A.Pass s s' child) (inv : A.Inv s) : A.Inv s' := by
  obtain ⟨p, hp, hchild⟩ := h.parent
  constructor
  case sublist => exact h.sublist.trans inv.sublist
  case given =>
    intro a l hl
    rcases h.children a with ⟨hnames, hset⟩ | ⟨-, hsame⟩
    · refine ⟨child, hnames, fun hmem => ((h.actions _).mp hmem).2.1 rfl, ?_⟩
      exact some.inj (hl.symm.trans hset)
    · obtain ⟨x, hx, hgone, rfl⟩ := inv.given a l (hsame.symm.trans hl)
      exact ⟨x, hx, fun hmem => hgone (h.sublist.subset hmem), rfl⟩
  case waits =>
    intro a x hnames hx
    obtain ⟨hmem, hne, hdc⟩ := (h.actions x).mp hx
    obtain ⟨ha, hnone⟩ := inv.waits a x hnames hmem
    constructor
    · refine (h.actions a).mpr ⟨ha, ?_, fun hboth => ?_⟩
      · rintro rfl
        have hsecond := find?_some hp
        obtain ⟨y, -, hy, hor⟩ := (isSecondOrder_iff inv.sublist.subset hchild.parent).mp hsecond
        obtain rfl := hy.unique hchild
        exact hor.elim (fun hne => hne hnames.sweep) fun hgone => hgone x hnames hmem
      · exact absurd (hboth.2.2.symm.trans hnames.sweep) (by decide)
    · rcases h.children a with ⟨hnames', -⟩ | ⟨-, hsame⟩
      · exact absurd (hnames.unique hnames') hne
      · exact hsame.trans hnone
  case parents =>
    intro a x hnames hx hdc
    rcases h.children a with ⟨hnames', hset⟩ | ⟨hnot, hsame⟩
    · rw [hnames.unique hnames', hset]
    · refine hsame.trans (inv.parents a x hnames (fun hmem => ?_) hdc)
      refine hx ((h.actions x).mpr ⟨hmem, ?_, fun hboth => hdc hboth.2⟩)
      rintro rfl
      exact hnot hnames
  case left =>
    intro a ha hgone
    by_cases hmem : a ∈ s.actions
    · have hor : a = child ∨ A.Plain child ∧ A.IsDc a := by
        by_contra hno
        rw [not_or] at hno
        exact hgone ((h.actions a).mpr ⟨hmem, hno⟩)
      rcases hor with rfl | ⟨hplain, hdc⟩
      · exact .inl ⟨p, hchild⟩
      · exact .inr ⟨hdc, p, child, hchild, hplain⟩
    · exact inv.left a ha hmem
  case needs =>
    intro q x hnames hplain hx d hd hmem
    obtain ⟨hmem, -, hno⟩ := (h.actions d).mp hmem
    by_cases hxs : x ∈ s.actions
    · refine hx ((h.actions x).mpr ⟨hxs, ?_, fun hboth => hplain.1 hboth.2.2⟩)
      rintro rfl
      exact hno ⟨hplain, hd⟩
    · exact inv.needs q x hnames hplain hxs d hd hmem
  case applied => exact h.applied

end Pass

/-! ## The pass of the source -/

section Source

variable {A}

structure Gives (child : ℕ) (l : List ℕ) (s s' : Order) : Prop where
  sublist : s'.actions.Sublist s.actions
  actions : ∀ b, b ∈ s'.actions ↔ b ∈ s.actions ∧
    ¬(A.Plain child ∧ A.IsDc b ∧ ∃ a ∈ l, A.Names a child)
  children : ∀ a, s'.children a = if getChild A.object a = some (A.object child).name ∧ a ∈ l then
    some (A.below child ++ s.childList a) else s.children a
  applied : s'.dcApplied ≠ 0 → ∀ d, A.IsDc d → d ∉ s'.actions

variable {child a : ℕ} {s : Order}

theorem Gives.skip (hget : getChild A.object a ≠ some (A.object child).name)
    (hnames : ¬A.Names a child)
    (applied : s.dcApplied ≠ 0 → ∀ d, A.IsDc d → d ∉ s.actions) : A.Gives child [a] s s := by
  refine ⟨.refl _, fun b => ⟨fun hb => ⟨hb, ?_⟩, And.left⟩, fun b => ?_, applied⟩
  · rintro ⟨-, -, c, hc, hnames'⟩
    rw [mem_singleton.mp hc] at hnames'
    exact hnames hnames'
  · rw [if_neg]
    rintro ⟨hb, hmem⟩
    rw [mem_singleton.mp hmem] at hb
    exact hget hb

theorem applyChild_gives (ha : a ∈ A.actions) (hchild : child ∈ A.actions)
    (applied : s.dcApplied ≠ 0 → ∀ d, A.IsDc d → d ∉ s.actions) :
    A.Gives child [a] s (applyChild A.object A.dc child s a) := by
  by_cases hnames : A.Names a child
  case neg =>
    have hget := mt (getChild_eq ha hchild).mp hnames
    rw [applyChild, if_neg hget]
    exact .skip hget hnames applied
  have hget := (getChild_eq ha hchild).mpr hnames
  have hself : ∀ b, (getChild A.object b = some (A.object child).name ∧ b ∈ [a]) ↔ b = a := by
    intro b
    rw [mem_singleton]
    exact ⟨And.right, by rintro rfl; exact ⟨hget, rfl⟩⟩
  rw [applyChild, if_pos hget]
  cases hdc : A.dc with
  | none =>
    have hno : ∀ d, ¬A.IsDc d := fun d hd => nomatch hdc.symm.trans (dc_eq.mpr hd)
    refine ⟨.refl _, fun b => ⟨fun hb => ⟨hb, fun h => hno b h.2.1⟩, And.left⟩,
      fun b => ?_, applied⟩
    simp only [hself, below, hdc, toList_none, nil_append, ite_self]
    exact s.addAnalysis_children a child b
  | some d =>
    have hd := dc_eq.mp hdc
    dsimp only
    split
    case isFalse hplain =>
      refine ⟨.refl _, fun b => ⟨fun hb => ⟨hb, fun h => hplain h.1⟩, And.left⟩,
        fun b => ?_, applied⟩
      simp only [hself, below, if_neg hplain]
      exact s.addAnalysis_children a child b
    case isTrue hplain =>
      rw [Order.addAnalysis_dcApplied]
      obtain ⟨t, ht, hsub, hmem, hkeep⟩ : ∃ t,
          (if s.dcApplied = 0 then (s.addAnalysis a child).removeAnalysis d
            else s.addAnalysis a child) = t ∧ t.actions.Sublist s.actions ∧
          (∀ b, b ∈ t.actions ↔ b ∈ s.actions ∧ b ≠ d) ∧
          t.children = (s.addAnalysis a child).children := by
        refine ⟨_, rfl, ?_⟩
        split
        case isTrue => exact ⟨filter_sublist, fun b => Order.mem_removeAnalysis .., rfl⟩
        case isFalse hne =>
          refine ⟨.refl _, fun b => ⟨fun hb => ⟨hb, ?_⟩, And.left⟩, rfl⟩
          rintro rfl
          exact applied hne b hd hb
      have hiff : ∀ b, A.IsDc b ↔ b = d :=
        fun b => ⟨fun hb => hb.unique hd, by rintro rfl; exact hd⟩
      rw [ht]
      refine ⟨hsub, fun b => ?_, fun b => ?_, fun _ e he hmem' => ?_⟩
      · rw [Order.addAnalysis_actions, hmem, hiff]
        refine and_congr_right fun _ => not_congr ⟨fun hb => ?_, fun h => h.2.1⟩
        exact ⟨hplain, hb, a, mem_singleton_self a, hnames⟩
      · simp only [hself, below, if_pos hplain, hdc, toList_some]
        rw [Order.addAnalysis_children]
        split
        case isTrue hb =>
          rw [hb, Order.childList, hkeep, ← Order.childList, Order.addAnalysis_childList]
          rfl
        case isFalse hb => rw [hkeep, Order.addAnalysis_children, if_neg hb]
      · exact ((hmem e).mp hmem').2 ((hiff e).mp he)

/-- **The loop over the parents.** -/
theorem foldl_applyChild (hchild : child ∈ A.actions) :
    ∀ {l : List ℕ}, l ⊆ A.actions → l.Nodup → ∀ {s : Order},
      (s.dcApplied ≠ 0 → ∀ d, A.IsDc d → d ∉ s.actions) →
      A.Gives child l s (l.foldl (applyChild A.object A.dc child) s)
  | [], _, _, s, applied => by
    refine ⟨.refl _, fun b => ⟨fun hb => ⟨hb, ?_⟩, And.left⟩, fun b => by simp, applied⟩
    rintro ⟨-, -, c, hc, -⟩
    cases hc
  | a :: l, hsub, hnodup, s, applied => by
    obtain ⟨ha, hsub⟩ := cons_subset.mp hsub
    obtain ⟨hal, hnodup⟩ := nodup_cons.mp hnodup
    have hone := applyChild_gives ha hchild applied
    have hrest := foldl_applyChild hchild hsub hnodup hone.applied
    rw [foldl_cons]
    refine ⟨hrest.sublist.trans hone.sublist, fun b => ?_, fun b => ?_, hrest.applied⟩
    · have hone' : (∃ c ∈ [a], A.Names c child) ↔ A.Names a child := by simp
      rw [hrest.actions, hone.actions, hone', exists_mem_cons_iff, and_assoc, ← not_or,
        ← and_or_left, ← and_or_left]
    · rw [hrest.children, Order.childList, hone.children]
      by_cases hb : b = a
      · subst hb
        simp [hal]
      · simp [hb, Order.childList]

/-! ### Sorting -/

def SubSweep (children : ℕ → Option (List ℕ)) (a b : ℕ) : Prop :=
  b ∈ (children a).getD [] ∧ (A.object b).type = .sweep

/-- The search for a type fails to return only along a chain of sweeps. -/
theorem steps_of_containsAnalysis {children : ℕ → Option (List ℕ)} {type : AnalysisType} :
    ∀ {fuel a : ℕ}, containsAnalysis A.object children type fuel a = none →
      ∃ b, Lib.Walk.Steps (A.SubSweep children) fuel a b
  | 0, a, _ => ⟨a, .zero a⟩
  | fuel + 1, a, h => by
    rw [containsAnalysis] at h
    split at h
    · cases h
    · next b hb =>
      split at h
      case isTrue => cases h
      case isFalse hne =>
        obtain ⟨c, hc⟩ := steps_of_containsAnalysis h
        have hor := find?_some hb
        rw [decide_eq_true_iff] at hor
        exact ⟨c, .succ ⟨mem_of_find?_eq_some hb, hor.resolve_left hne⟩ hc⟩

theorem Inv.names_of_subSweep (inv : A.Inv s) {a b : ℕ}
    (h : A.SubSweep s.children a b) : A.Names a b := by
  obtain ⟨l, hc, hmem⟩ := Order.mem_childList.mp h.1
  obtain ⟨x, hx, -, rfl⟩ := inv.given a l hc
  exact ((mem_below hx).mp hmem).elim id fun hdc => absurd (hdc.1.2.symm.trans h.2) (by decide)

variable {fuel : ℕ}

section

variable (inv : A.Inv s) (hf : A.actions.length < fuel)
include inv hf

theorem Inv.containsAnalysis_returns (type : AnalysisType) (a : ℕ) :
    ∃ b, containsAnalysis A.object s.children type fuel a = some b := by
  cases h : containsAnalysis A.object s.children type fuel a with
  | some b => exact ⟨b, rfl⟩
  | none =>
    obtain ⟨b, hb⟩ := steps_of_containsAnalysis h
    obtain ⟨x, -, hx⟩ := Lib.Walk.exists_cycle_of_steps
      (fun a b _ hab => (inv.names_of_subSweep hab).parent) hf hb
    exact absurd (TransGen.mono (fun _ _ => inv.names_of_subSweep) x x hx) (A.acyclic x)

theorem Inv.inFront_returns (a : ℕ) : ∃ front, inFront A.object fuel s.children a = some front := by
  rw [inFront]
  split
  · exact ⟨true, rfl⟩
  · exact inv.containsAnalysis_returns hf _ _

theorem Inv.sortAnalyses_perm {alist : List ℕ} (hnodup : alist.Nodup) :
    ∃ sorted, sortAnalyses A.object fuel s.children alist = some sorted ∧ sorted.Perm alist := by
  have hloop : ∀ (l : List ℕ) (sorted : List ℕ), l ⊆ sorted → sorted.Nodup →
      ∃ sorted', l.foldlM (fun sorted a => (inFront A.object fuel s.children a).map fun front =>
        if front then a :: sorted.filter (· ≠ a) else sorted) sorted = some sorted' ∧
        sorted'.Perm sorted := by
    intro l
    induction l with
    | nil => exact fun sorted _ _ => ⟨sorted, rfl, .refl _⟩
    | cons a l ih =>
      intro sorted hsub hnodup
      obtain ⟨ha, hsub⟩ := cons_subset.mp hsub
      obtain ⟨front, hfront⟩ := inv.inFront_returns hf a
      have hperm : (if front then a :: sorted.filter (· ≠ a) else sorted).Perm sorted := by
        split
        · have herase : sorted.filter (· ≠ a) = sorted.erase a := by
            rw [hnodup.erase_eq_filter]
            exact filter_congr fun b _ => by simp [bne, BEq.beq]
          rw [herase]
          exact (perm_cons_erase ha).symm
        · exact .refl _
      obtain ⟨sorted', hsorted', hperm'⟩ :=
        ih _ (fun x hx => hperm.mem_iff.mpr (hsub hx)) (hperm.nodup_iff.mpr hnodup)
      refine ⟨sorted', ?_, hperm'.trans hperm⟩
      rw [foldlM_cons, hfront]
      exact hsorted'
  exact hloop alist alist (List.Subset.refl _) hnodup

theorem Inv.sortAnalyses_below (x : ℕ) :
    sortAnalyses A.object fuel s.children (A.below x) = some (A.below x) := by
  rcases below_cases x with hbelow | ⟨d, hd, hplain, hne, hbelow⟩
  · obtain ⟨front, hfront⟩ := inv.inFront_returns hf x
    rw [hbelow, sortAnalyses, foldlM_cons, hfront]
    cases front <;> simp
  · have hdfront : inFront A.object fuel s.children d = some true := by rw [inFront, if_pos hd.2]
    have hxnone : s.children x = none := by
      refine eq_none_iff_forall_ne_some.mpr fun l hl => ?_
      obtain ⟨y, hy, -⟩ := inv.given x l hl
      exact hplain.2 hy.sweep
    have hxfront : inFront A.object fuel s.children x = some false := by
      obtain ⟨n, rfl⟩ := Nat.exists_eq_succ_of_ne_zero (Nat.ne_zero_of_lt hf)
      rw [inFront, if_neg hplain.1, containsAnalysis, hxnone]
      rfl
    simp [hbelow, sortAnalyses, hdfront, hxfront, hne.symm]

theorem Inv.sortChildAnalyses_fixed (l : List ℕ) :
    l.foldlM (sortChildAnalyses A.object fuel) s = some s := by
  refine Lib.Fold.foldlM_fixed fun a _ => ?_
  rw [sortChildAnalyses]
  cases hc : s.children a with
  | none => rfl
  | some l =>
    obtain ⟨x, -, -, rfl⟩ := inv.given a l hc
    dsimp only
    rw [inv.sortAnalyses_below hf]
    show some { s with children := _ } = some s
    rw [← hc, Function.update_eq_self]

end

/-! ### The loop -/

/-- **One pass of the source.** -/
theorem orderPass_pass (inv : A.Inv s) (hf : A.actions.length < fuel)
    {p : ℕ} (hp : findSecondOrder A.object s.actions = some p) :
    ∃ s' child, orderPass A.object fuel A.dc s p = some s' ∧ A.Pass s s' child := by
  have hsub := inv.sublist.subset
  have hpmem := hsub (mem_of_find?_eq_some hp)
  obtain ⟨child, hmem, hnames, -⟩ := (isSecondOrder_iff hsub hpmem).mp (find?_some hp)
  have hget := (getChildAnalysis_eq hsub hpmem).mpr ⟨hnames, hmem⟩
  set t := s.removeAnalysis child with ht
  have htmem := s.mem_removeAnalysis child
  have htsub : t.actions.Sublist s.actions := filter_sublist
  have gives := foldl_applyChild hnames.child (fun b hb => hsub (htsub.subset hb))
    ((A.nodup.sublist inv.sublist).sublist htsub) (s := t)
    fun h d hd hdt => inv.applied h d hd (htsub.subset hdt)
  set s' := t.actions.foldl (applyChild A.object A.dc child) t with hs'
  have hparent : ∀ a, A.Names a child → a ∈ t.actions ∧ s.children a = none := by
    intro a ha
    obtain ⟨has, hnone⟩ := inv.waits a child ha hmem
    refine ⟨(htmem a).mpr ⟨has, ?_⟩, hnone⟩
    rintro rfl
    exact A.acyclic a (.single ha)
  have pass : A.Pass s s' child := by
    refine ⟨⟨p, hp, hnames⟩, hmem, gives.sublist.trans htsub, fun b => ?_, fun a => ?_,
      gives.applied⟩
    · rw [gives.actions, htmem, and_assoc]
      refine and_congr_right fun _ => and_congr_right fun _ => not_congr ?_
      exact ⟨fun h => ⟨h.1, h.2.1⟩, fun h => ⟨h.1, h.2, p, (hparent p hnames).1, hnames⟩⟩
    · rw [gives.children]
      by_cases ha : A.Names a child
      · obtain ⟨hat, hnone⟩ := hparent a ha
        refine .inl ⟨ha, ?_⟩
        rw [if_pos ⟨(getChild_eq ha.parent ha.child).mpr ha, hat⟩, Order.childList]
        simp [ht, hnone]
      · refine .inr ⟨ha, ?_⟩
        rw [if_neg]
        · rfl
        · exact fun h => ha ((getChild_eq (hsub (htsub.subset h.2)) hnames.child).mp h.1)
  refine ⟨s', child, ?_, pass⟩
  rw [orderPass, hget]
  exact (pass.inv inv).sortChildAnalyses_fixed hf _

def Run (A : Analyses) : Order → Order → Prop := ReflTransGen fun s s' => ∃ child, A.Pass s s' child

theorem Run.inv {s s' : Order} (h : A.Run s s') (inv : A.Inv s) : A.Inv s' := by
  induction h with
  | refl => exact inv
  | tail _ hstep ih =>
    obtain ⟨child, hpass⟩ := hstep
    exact hpass.inv ih

/-- **The loop ends**, as every pass takes an analysis from the list. -/
theorem orderLoop_run (hf : A.actions.length < fuel) :
    ∀ {n : ℕ} {s : Order}, A.Inv s → s.actions.length < n →
      ∃ s', orderLoop A.object fuel A.dc n s = some s' ∧ A.Run s s' ∧
        findSecondOrder A.object s'.actions = none
  | n + 1, s, inv, hn => by
    rw [orderLoop]
    cases hp : findSecondOrder A.object s.actions with
    | none => exact ⟨s, rfl, .refl, hp⟩
    | some p =>
      obtain ⟨t, child, ht, hpass⟩ := orderPass_pass inv hf hp
      have hlt : t.actions.length < s.actions.length := by
        refine lt_of_le_of_ne hpass.sublist.length_le fun heq => ?_
        have hmem := hpass.mem
        rw [← hpass.sublist.eq_of_length heq, hpass.actions] at hmem
        exact hmem.2.1 rfl
      obtain ⟨s', hs', hrun, hnone⟩ := orderLoop_run hf (hpass.inv inv) (n := n) (by omega)
      refine ⟨s', ?_, hrun.head ⟨child, hpass⟩, hnone⟩
      rw [← hs']
      simp [ht]

end Source

/-! ## The nesting -/

section Nesting

variable {A}

variable {s : Order} {a x : ℕ}

/-- When no sweep is left to be served, everything that is named has left. -/
theorem Inv.gone (inv : A.Inv s) (hnone : findSecondOrder A.object s.actions = none)
    (h : A.Names a x) : x ∉ s.actions := by
  induction x using A.wellFounded_names.induction generalizing a with
  | _ x ih =>
    intro hx
    have ha := (inv.waits a x h hx).1
    have hnot := find?_eq_none.mp hnone a ha
    rw [isSecondOrder_iff inv.sublist.subset h.parent] at hnot
    exact hnot ⟨x, hx, h, .inr fun y hy => ih y hy hy⟩

variable {d : ℕ}

theorem below_dc (hd : A.IsDc d) : A.below d = [d] := by
  rw [below, if_neg]
  exact fun h => h.1 hd.2

theorem below_once (x : ℕ) : (A.below x).Nodup ∧
    ∀ d ∈ A.below x, A.IsDc d → (A.below x).head? = some d := by
  rcases below_cases x with hbelow | ⟨e, he, -, hne, hbelow⟩
  · rw [hbelow]
    refine ⟨nodup_singleton x, fun d hd _ => ?_⟩
    rw [mem_singleton.mp hd]
    rfl
  · rw [hbelow]
    refine ⟨by simp [hne], fun d _ hd => ?_⟩
    rw [hd.unique he]
    rfl

/-- What the ordering leaves, whether or not the sweeps that name the DC analysis
got it. -/
structure Ordered (A : Analyses) (s : Order) : Prop where
  top : ∀ a, a ∈ s.actions ↔ a ∈ A.actions ∧ ¬A.Leaves a
  nodup : s.actions.Nodup
  given : ∀ a l, s.children a = some l → ∃ x, A.Names a x ∧ l = A.below x
  parents : ∀ a x, A.Names a x → ¬A.IsDc x → s.children a = some (A.below x)

theorem Inv.ordered (inv : A.Inv s) (hnone : findSecondOrder A.object s.actions = none)
    {sorted : List ℕ} (hperm : sorted.Perm s.actions) : A.Ordered { s with actions := sorted } := by
  constructor
  case top =>
    intro a
    rw [hperm.mem_iff]
    constructor
    · refine fun ha => ⟨inv.sublist.subset ha, ?_⟩
      rintro (⟨p, hp⟩ | ⟨hd, p, x, hp, hplain⟩)
      · exact inv.gone hnone hp ha
      · exact inv.needs p x hp hplain (inv.gone hnone hp) a hd ha
    · rintro ⟨ha, hstays⟩
      by_contra hgone
      exact hstays (inv.left a ha hgone)
  case nodup => exact hperm.nodup_iff.mpr (A.nodup.sublist inv.sublist)
  case given =>
    intro a l hl
    obtain ⟨x, hx, -, heq⟩ := inv.given a l hl
    exact ⟨x, hx, heq⟩
  case parents => exact fun a x h hx => inv.parents a x h (inv.gone hnone h) hx

/-- Every sweep that names the DC analysis has it as a child. -/
def DcGiven (A : Analyses) (s : Order) : Prop :=
  ∀ a d, A.Names a d → A.IsDc d → s.children a = some [d]

theorem Ordered.children_eq (h : A.Ordered s) (hdc : A.DcGiven s)
    (hnames : A.Names a x) : s.children a = some (A.below x) := by
  by_cases hx : A.IsDc x
  · rw [hdc a x hnames hx, below_dc hx]
  · exact h.parents a x hnames hx

/-- **The nesting is proper** iff every sweep that names the DC analysis got
it. -/
theorem Ordered.nested_iff (h : A.Ordered s) : A.Nested s ↔ A.DcGiven s := by
  have hgiven : ∀ {a x}, x ∈ s.childList a → ∃ y, A.Names a y ∧ s.children a = some (A.below y) ∧
      x ∈ A.below y := by
    intro a x hx
    obtain ⟨l, hc, hx⟩ := Order.mem_childList.mp hx
    obtain ⟨y, hy, rfl⟩ := h.given a l hc
    exact ⟨y, hy, hc, hx⟩
  constructor
  · intro hnested a d hnames hd
    obtain ⟨x, hx, hc, -⟩ := hgiven ((hnested.children a d).mpr (.inl hnames))
    rw [hc, ← hnames.unique hx, below_dc hd]
  intro hdc
  constructor
  case top => exact h.top
  case children =>
    intro a x
    constructor
    · intro hx
      obtain ⟨y, hy, -, hx⟩ := hgiven hx
      exact (mem_below hy).mp hx
    · intro hunder
      obtain ⟨y, hy⟩ : ∃ y, A.Names a y := by
        rcases hunder with hx | ⟨-, y, hy, -⟩
        · exact ⟨x, hx⟩
        · exact ⟨y, hy⟩
      exact Order.mem_childList.mpr ⟨_, h.children_eq hdc hy, (mem_below hy).mpr hunder⟩
  case dc_first =>
    intro a x hx hd
    obtain ⟨y, -, hc, hx⟩ := hgiven hx
    rw [Order.childList, hc]
    exact (below_once y).2 x hx hd
  case once =>
    refine ⟨h.nodup, fun a => ?_⟩
    rw [Order.childList]
    cases hc : s.children a with
    | none => exact nodup_nil
    | some l =>
      obtain ⟨y, -, rfl⟩ := h.given a l hc
      exact (below_once y).1

variable {p : ℕ}

section

variable (hp : findSecondOrder A.object A.actions = some p)
include hp

/-- The first pass takes the first analysis that is named and no sweep. -/
theorem first_pass :
    ∃ l m, A.actions = l ++ p :: m ∧ ∀ q ∈ l, ∀ y, A.Names q y → (A.object y).type = .sweep := by
  obtain ⟨-, l, m, heq, hl⟩ := find?_eq_some_iff_append.mp hp
  refine ⟨l, m, heq, fun q hq y hy => ?_⟩
  have hq' : q ∈ A.actions := heq ▸ mem_append_left _ hq
  have hnot := hl q hq
  rw [Bool.not_eq_true', ← Bool.not_eq_true, isSecondOrder_iff (List.Subset.refl _) hq'] at hnot
  by_contra hsweep
  exact hnot ⟨y, hy.child, hy, .inl hsweep⟩

/-- If the first pass takes the DC analysis, a sweep names it before any sweep that
names another analysis than a sweep. -/
theorem first_pass_before (hnames : A.Names p d) (hd : A.IsDc d) {l m : List ℕ} {q x : ℕ}
    (heq : A.actions = l ++ q :: m) (hq : A.Names q x) (hplain : A.Plain x) :
    ∃ r ∈ l, A.Names r d := by
  have hne : p ≠ q := by
    rintro rfl
    exact hplain.1 (hq.unique hnames ▸ hd.2)
  obtain ⟨l', m', heq', hl'⟩ := first_pass hp
  rcases append_eq_append_iff.mp (heq'.symm.trans heq) with ⟨k, rfl, hk⟩ | ⟨k, rfl, hk⟩
  · rcases cons_eq_append_iff.mp hk with ⟨-, hcons⟩ | ⟨k', rfl, -⟩
    · exact absurd (cons.inj hcons).1.symm hne
    · exact ⟨p, by simp, hnames⟩
  · rcases cons_eq_append_iff.mp hk with ⟨-, hcons⟩ | ⟨k', rfl, -⟩
    · exact absurd (cons.inj hcons).1 hne
    · exact absurd (hl' q (by simp) x hq) hplain.2

theorem first_child (hx : A.Names p x) (hd : A.IsDc d) (hne : x ≠ d) : A.Plain x := by
  refine ⟨fun hdc => hne (IsDc.unique ⟨hx.child, hdc⟩ hd), ?_⟩
  obtain ⟨y, -, hy, hor⟩ := (isSecondOrder_iff (List.Subset.refl _) hx.parent).mp (find?_some hp)
  rw [hx.unique hy]
  refine hor.elim id fun hgone hsweep => ?_
  obtain ⟨z, hz⟩ := A.exists_sim y hy.child hsweep
  exact hgone z hz hz.child

end

/-- Once the DC analysis has left, the children of a sweep that names it stay. -/
theorem Run.dc_children {s s' : Order} (h : A.Run s s') (hnames : A.Names a d)
    (hgone : d ∉ s.actions) : d ∉ s'.actions ∧ s'.children a = s.children a := by
  induction h with
  | refl => exact ⟨hgone, rfl⟩
  | tail _ hstep ih =>
    obtain ⟨child, hpass⟩ := hstep
    refine ⟨fun hmem => ih.1 (hpass.sublist.subset hmem), ?_⟩
    rcases hpass.children a with ⟨hchild, -⟩ | ⟨-, hsame⟩
    · rw [hnames.unique hchild] at ih
      exact absurd hpass.mem ih.1
    · exact hsame.trans ih.2

/-- A run of the passes gives the DC analysis to all sweeps that name it exactly
when the first pass takes it. -/
theorem Run.dcGiven_iff (hrun : A.Run ⟨A.actions, fun _ => none, 0⟩ s)
    (hnone : findSecondOrder A.object s.actions = none) : A.DcGiven s ↔ A.DcFirst := by
  have hfirst : ∀ a d, A.Names a d → A.IsDc d → ∃ t p child,
      findSecondOrder A.object A.actions = some p ∧ A.Names p child ∧
      A.Pass ⟨A.actions, fun _ => none, 0⟩ t child ∧ A.Run t s := by
    intro a d hnames hd
    rcases hrun.cases_head with rfl | ⟨t, ⟨child, hpass⟩, hrest⟩
    · exact absurd hd.1 (Inv.initial.gone hnone hnames)
    · obtain ⟨p, hp, hchild⟩ := hpass.parent
      exact ⟨t, p, child, hp, hchild, hpass, hrest⟩
  constructor
  · intro hgiven a d hnames hd l p m x heq hp hplain
    obtain ⟨t, p', child, hp', hchild, hpass, hrest⟩ := hfirst a d hnames hd
    by_contra hno
    have hne : child ≠ d := by
      rintro rfl
      exact hno (first_pass_before hp' hchild hd heq hp hplain)
    have hgone : d ∉ t.actions := fun hmem =>
      ((hpass.actions d).mp hmem).2.2 ⟨first_child hp' hchild hd hne, hd⟩
    have hkept := (hrest.dc_children hnames hgone).2
    rw [hgiven a d hnames hd] at hkept
    rcases hpass.children a with ⟨hc, -⟩ | ⟨-, hsame⟩
    · exact hne (hc.unique hnames)
    · exact nomatch hkept.trans hsame
  · intro hfirstdc a d hnames hd
    obtain ⟨t, p, child, hp, hchild, hpass, hrest⟩ := hfirst a d hnames hd
    obtain ⟨l, m, heq, hl⟩ := first_pass hp
    obtain rfl : child = d := by
      by_contra hne
      obtain ⟨q, hq, hqd⟩ := hfirstdc a d hnames hd l p m child heq hchild
        (first_child hp hchild hd hne)
      exact absurd (hd.2.symm.trans (hl q hq d hqd)) (by decide)
    have hgone : child ∉ t.actions := fun hmem => ((hpass.actions child).mp hmem).2.1 rfl
    rw [(hrest.dc_children hnames hgone).2]
    rcases hpass.children a with ⟨-, hset⟩ | ⟨hnot, -⟩
    · rw [hset, below_dc hd]
    · exact absurd hnames hnot

/-- **The ordering returns.** -/
theorem orderAnalysis_ordered (A : Analyses) {fuel : ℕ} (hf : A.actions.length < fuel) :
    ∃ s, orderAnalysis A.object fuel A.actions = some s ∧ A.Ordered s ∧
      (A.DcGiven s ↔ A.DcFirst) := by
  obtain ⟨s, hloop, hrun, hnone⟩ := orderLoop_run hf Inv.initial hf
  have inv := hrun.inv Inv.initial
  obtain ⟨sorted, hsorted, hperm⟩ := inv.sortAnalyses_perm hf (A.nodup.sublist inv.sublist)
  refine ⟨{ s with actions := sorted }, ?_, inv.ordered hnone hperm, hrun.dcGiven_iff hnone⟩
  show (orderLoop A.object fuel A.dc fuel _).bind _ = _
  rw [hloop]
  show (sortAnalyses A.object fuel s.children s.actions).bind _ = _
  rw [hsorted]
  rfl

/-- **The ordering ends, and nests the analyses properly** iff a sweep
that names the DC analysis, if there is one, comes before those that name others. -/
theorem orderAnalysis_nested_iff (A : Analyses) {fuel : ℕ} (hf : A.actions.length < fuel) :
    ∃ s, orderAnalysis A.object fuel A.actions = some s ∧ (A.Nested s ↔ A.DcFirst) := by
  obtain ⟨s, hs, hordered, hiff⟩ := orderAnalysis_ordered A hf
  exact ⟨s, hs, hordered.nested_iff.trans hiff⟩

/-- A sweep over an AC analysis in front of one over the DC analysis. -/
def sweepObjects : ℕ → Analysis
  | 0 => { name := "SW2", type := .sweep, sim := "AC1" }
  | 1 => { name := "SW1", type := .sweep, sim := "DC1" }
  | 2 => { name := "AC1", type := .ac }
  | _ => { name := "DC1", type := .dc }

def twoSweeps : Analyses where
  object := sweepObjects
  actions := [0, 1, 2, 3]
  nodup := by decide
  name_inj := by decide
  dc_unique := by decide
  exists_sim a ha hsweep := by
    have h : ∀ a ∈ [0, 1, 2, 3], (sweepObjects a).type = .sweep →
        ∃ b ∈ [0, 1, 2, 3], Sweeps.Names sweepObjects [0, 1, 2, 3] a b := by decide
    obtain ⟨b, -, hb⟩ := h a ha hsweep
    exact ⟨b, hb⟩
  acyclic := acyclic_of_lt _ (by decide)

theorem orderAnalysis_twoSweeps : twoSweeps.actions.length < 5 ∧
    ∃ s, orderAnalysis twoSweeps.object 5 twoSweeps.actions = some s ∧
      (twoSweeps.Nested s ↔ twoSweeps.DcFirst) :=
  ⟨by decide, orderAnalysis_nested_iff twoSweeps (by decide)⟩

/-- The AC analysis takes the DC analysis away, and the sweep `SW1` is left without
a child. -/
theorem twoSweeps_not_nested :
    ¬∃ s, orderAnalysis twoSweeps.object 5 twoSweeps.actions = some s ∧ twoSweeps.Nested s := by
  rintro ⟨s, hs, hnested⟩
  have hempty : (orderAnalysis twoSweeps.object 5 twoSweeps.actions).map (·.childList 1) =
    some [] := by
    decide
  rw [hs] at hempty
  have hnil : s.childList 1 = [] := some.inj hempty
  have hnames : twoSweeps.Names 1 3 := ⟨by decide, by decide, rfl, rfl⟩
  have hmem := (hnested.children 1 3).mpr (.inl hnames)
  rw [hnil] at hmem
  cases hmem

end Nesting

end Analyses

end Qucs.Sweeps
