/-
# Node names are connectivity

Two nodes are linked if a path of wires leads from one to the other. A line of
linked nodes carries the labels of its nodes and wires, and ground if a ground
symbol is on it (`Carries`). If these do not contradict each other, two nodes get
the same name iff they are linked or their lines carry the same
(`giveNodeNames_connectivity`). In an analog schematic a label `gnd` is the same
as ground.

The names that are there before they are spread are the marks of single nodes
(`Seeded`). Spreading names is a flood. After the nodes with names nothing next
to a name is without one, so a line has names everywhere or nowhere; each new name
then fills one line.
-/
import Qucs.Lib.Fold
import Qucs.Schematic.NodeNames

namespace Qucs.Schematic

open Relation Lib.Flood Lib.Fold List Function
open Option (some)

/-- What a line can carry. -/
inductive Mark where
  | label (name : String)
  | ground
  deriving DecidableEq

namespace Sheet

variable {N : Type} (sheet : Sheet N)

/-! ## Lines -/

def Adjacent (a b : N) : Prop :=
  ∃ w ∈ sheet.docWires, (w.port1 = a ∧ w.port2 = b) ∨ (w.port1 = b ∧ w.port2 = a)

def Linked : N → N → Prop := ReflTransGen sheet.Adjacent

/-- A label or a ground symbol at a node; the first port of a wire stands for
it. -/
inductive MarkAt : N → Mark → Prop
  | node {n : N} {l : Label} : sheet.label n = some l → MarkAt n (.label l.name)
  | wire {w : Wire N} {l : Label} :
      w ∈ sheet.docWires → w.label = some l → MarkAt w.port1 (.label l.name)
  | ground {c : Component N} :
      c ∈ sheet.docComps → c.isActive → c.isGround → MarkAt c.connection .ground

def Carries (n : N) (m : Mark) : Prop := ∃ n', sheet.Linked n n' ∧ sheet.MarkAt n' m

/-- The same label, both ground, or in an analog schematic ground under its
name. -/
def SameMark (m m' : Mark) : Prop :=
  m = m' ∨ sheet.isAnalog ∧ m ∈ [.ground, .label "gnd"] ∧ m' ∈ [.ground, .label "gnd"]

def markName : Mark → String
  | .label l => if sheet.isAnalog then l else "net" ++ l
  | .ground => "gnd"

variable {sheet}

variable {a b : N}

theorem Adjacent.symm (h : sheet.Adjacent a b) : sheet.Adjacent b a := by
  obtain ⟨w, hw, h⟩ := h
  exact ⟨w, hw, h.symm⟩

instance : Std.Symm sheet.Adjacent := ⟨fun _ _ => Adjacent.symm⟩

theorem Linked.symm (h : sheet.Linked a b) : sheet.Linked b a := ReflTransGen.stdSymm.symm _ _ h

theorem Adjacent.mem (h : sheet.Adjacent a b) : a ∈ sheet.docNodes := by
  obtain ⟨w, hw, ⟨rfl, -⟩ | ⟨-, rfl⟩⟩ := h
  · exact (sheet.ports_mem w hw).1
  · exact (sheet.ports_mem w hw).2

theorem Linked.mem (h : sheet.Linked a b) (ha : a ∈ sheet.docNodes) : b ∈ sheet.docNodes := by
  induction h with
  | refl => exact ha
  | tail _ hbc _ => exact hbc.symm.mem

variable {m : Mark}

theorem Carries.of_linked (h : sheet.Carries a m) (hab : sheet.Linked a b) : sheet.Carries b m := by
  obtain ⟨n, hn, hm⟩ := h
  exact ⟨n, hab.symm.trans hn, hm⟩

/-! ## Names of marks -/

theorem append_left_inj {s t t' : String} : s ++ t = s ++ t' ↔ t = t' := by simp [String.ext_iff]

theorem net_ne (l : String) : "net" ++ l ≠ "gnd" := fun h => by simpa using congrArg String.toList h

theorem markName_eq_iff {m m' : Mark} :
    sheet.markName m = sheet.markName m' ↔ sheet.SameMark m m' := by
  cases h : sheet.isAnalog with
  | true =>
    cases m <;> cases m' <;> simp only [markName, SameMark, h, if_true] <;> grind
  | false =>
    cases m <;> cases m' <;> simp [markName, SameMark, h, net_ne, (net_ne _).symm]

/-- Labels start with a letter. -/
def LettersFirst (sheet : Sheet N) : Prop :=
  ∀ n l, sheet.MarkAt n (.label l) → ∃ c s, l.toList = c :: s ∧ c.isAlpha

variable {n : N}

theorem markName_ne_nil (h : LettersFirst sheet) (hm : sheet.MarkAt n m) :
    sheet.markName m ≠ "" := by
  intro hnil
  have hlist := congrArg String.toList hnil
  cases m with
  | ground => simp [markName] at hlist
  | label l =>
    obtain ⟨c, s, hl, -⟩ := h n l hm
    rw [markName] at hlist
    split at hlist <;> simp [hl] at hlist

theorem generatedName_ne (h : LettersFirst sheet) (hm : sheet.MarkAt n m)
    (z : ℕ) : sheet.generatedName z ≠ sheet.markName m := by
  intro heq
  have hlist := congrArg String.toList heq
  cases m with
  | ground =>
    rw [generatedName, markName] at hlist
    split at hlist <;> simp at hlist
  | label l =>
    obtain ⟨c, s, hl, hc⟩ := h n l hm
    rw [generatedName, markName] at hlist
    have hletter : '_' ≠ c := by
      rintro rfl
      exact absurd hc (by decide)
    split at hlist <;> simp [hl, hletter] at hlist

theorem generatedName_inj {z z' : ℕ} (h : sheet.generatedName z = sheet.generatedName z') :
    z = z' := by
  rw [generatedName, generatedName, append_left_inj] at h
  have hdigits : Nat.toDigits 10 z = Nat.toDigits 10 z' := by
    rw [← Nat.toList_repr, ← Nat.toList_repr]
    exact congrArg String.toList h
  rw [← Nat.ofDigitChars_ten_toDigits (n := z), hdigits, Nat.ofDigitChars_ten_toDigits]

variable (sheet) in
theorem generatedName_ne_nil (z : ℕ) : sheet.generatedName z ≠ "" := by
  rw [generatedName]
  split <;> simp [String.ext_iff]

/-! ## What the two passes are to keep -/

section Invariants

variable {s : Naming N}

/-- The names before they are spread, those of some marks. -/
structure Seeded (sheet : Sheet N) (M : N → Mark → Prop) (s : Naming N) : Prop where
  marked : ∀ n ∈ sheet.docNodes, s.name n ≠ "" → ∃ m, M n m ∧ s.name n = sheet.markName m
  named : ∀ n ∈ sheet.docNodes, ∀ m, M n m → s.name n ≠ ""
  state : ∀ n ∈ sheet.docNodes, s.state n = false

/-- The names are those of marks, spread along the wires. -/
structure FromMarks (sheet : Sheet N) (s : Naming N) : Prop where
  marked : ∀ n ∈ sheet.docNodes, s.name n ≠ "" →
    ∃ m, sheet.Carries n m ∧ s.name n = sheet.markName m
  named : ∀ n ∈ sheet.docNodes, ∀ m, sheet.MarkAt n m → s.name n ≠ ""
  /-- Next to a node that was worked on no name is missing. -/
  full : ∀ n ∈ sheet.docNodes, s.state n → ∀ q, sheet.Adjacent n q → s.name q ≠ ""

theorem Seeded.fromMarks (h : Seeded sheet sheet.MarkAt s) : FromMarks sheet s where
  marked n hn hname := by
    obtain ⟨m, hm, heq⟩ := h.marked n hn hname
    exact ⟨m, ⟨n, .refl, hm⟩, heq⟩
  named := h.named
  full n hn hstate := by simp [h.state n hn] at hstate

/-- Where no name is missing next to one, a line has names or it has none. -/
def Closed (sheet : Sheet N) (s : Naming N) : Prop :=
  ∀ p, s.name p ≠ "" → ∀ q, sheet.Adjacent p q → s.name q ≠ ""

theorem Closed.iff_of_linked (h : Closed sheet s) {a b : N} (hab : sheet.Linked a b) :
    s.name a ≠ "" ↔ s.name b ≠ "" :=
  ⟨closed_of_full h hab, closed_of_full h hab.symm⟩

/-- What the second pass keeps: `s₁` are the names it starts with, `z` the number of
names it has made. -/
structure Numbered (sheet : Sheet N) (s₁ s : Naming N) (z : ℕ) : Prop where
  kept : ∀ n, s₁.name n ≠ "" → s.name n = s₁.name n
  closed : Closed sheet s
  /-- A name that was made belongs to one line. -/
  line : ∀ n ∈ sheet.docNodes, s₁.name n = "" → s.name n ≠ "" → ∃ k < z,
    s.name n = sheet.generatedName k ∧
      ∀ n' ∈ sheet.docNodes, s.name n' = sheet.generatedName k ↔ sheet.Linked n n'

end Invariants

/-! ## Spreading a name -/

/-- Names that are there stay, and a node that gets one is worked on. -/
structure Spreads (s s' : Naming N) : Prop where
  kept : ∀ n, s.name n ≠ "" → s'.name n = s.name n
  state : ∀ n, s'.state n ↔ s.state n ∨ s'.name n ≠ s.name n

theorem Spreads.refl (s : Naming N) : Spreads s s :=
  ⟨fun _ _ => rfl, fun _ => ⟨.inl, fun h => h.elim id fun h => absurd rfl h⟩⟩

theorem Spreads.trans {s₁ s₂ s₃ : Naming N} (h₁ : Spreads s₁ s₂) (h₂ : Spreads s₂ s₃) :
    Spreads s₁ s₃ := by
  constructor
  case kept =>
    intro n hn
    rw [h₂.kept n (by rwa [h₁.kept n hn]), h₁.kept n hn]
  case state =>
    intro n
    have hkept₁ := h₁.kept n
    have hkept₂ := h₂.kept n
    rw [h₂.state n, h₁.state n]
    grind

theorem createNodeSet_name (l : Option Label) (p : N) (s : Naming N) :
    (createNodeSet l p s).name = s.name ∧ (createNodeSet l p s).state = s.state := by
  cases l with
  | none => exact ⟨rfl, rfl⟩
  | some l =>
    simp only [createNodeSet]
    split <;> exact ⟨rfl, rfl⟩

variable [DecidableEq N] {s : Naming N} {pn p2 : N}

/-- What a connection leads to. -/
def beyond (p : N) : Element N → Option N
  | .wire w => some (otherPort w p)
  | .component => none

def neighbours (sheet : Sheet N) (p : N) : List N := (sheet.connections p).filterMap (beyond p)

theorem mem_neighbours {p q : N} : q ∈ sheet.neighbours p ↔ sheet.Adjacent p q := by
  have hwire : q ∈ sheet.neighbours p ↔
      ∃ w, Element.wire w ∈ sheet.connections p ∧ otherPort w p = q := by
    rw [neighbours, mem_filterMap]
    constructor
    · rintro ⟨_ | _, hmem, heq⟩
      · exact ⟨_, hmem, some.inj heq⟩
      · cases heq
    · rintro ⟨w, hmem, heq⟩
      exact ⟨.wire w, hmem, congrArg some heq⟩
  rw [hwire]
  constructor
  · rintro ⟨w, hmem, rfl⟩
    obtain ⟨hw, hp⟩ := (sheet.mem_connections p w).mp hmem
    refine ⟨w, hw, ?_⟩
    rw [otherPort]
    grind
  · rintro ⟨w, hw, h⟩
    refine ⟨w, (sheet.mem_connections p w).mpr ⟨hw, ?_⟩, ?_⟩
    · exact h.imp And.left And.right
    · rw [otherPort]
      grind

variable (sheet p2) in
theorem propagateConnection_wire (w : Wire N) (cons : List N) (hpn : s.name pn ≠ "") :
    (sheet.propagateConnection pn p2 (s, cons) (.wire w)).1.name =
        (fill "" (s.name pn) (s.name, cons) (otherPort w p2)).1 ∧
      (sheet.propagateConnection pn p2 (s, cons) (.wire w)).2 =
        (fill "" (s.name pn) (s.name, cons) (otherPort w p2)).2 ∧
      Spreads s (sheet.propagateConnection pn p2 (s, cons) (.wire w)).1 := by
  simp only [propagateConnection, fill]
  split
  case isTrue hblank =>
    have hspreads : Spreads s { s with
        name := update s.name (otherPort w p2) (s.name pn)
        state := update s.state (otherPort w p2) true } := by
      refine ⟨fun n hn => ?_, fun n => ?_⟩ <;> by_cases h : n = otherPort w p2
      · exact absurd hblank (h ▸ hn)
      · exact update_of_ne h _ _
      · simp [h, hblank, hpn]
      · simp [update_of_ne h]
    split
    · obtain ⟨hname, hstate⟩ := createNodeSet_name w.label pn { s with
        name := update s.name (otherPort w p2) (s.name pn)
        state := update s.state (otherPort w p2) true }
      exact ⟨hname, rfl, fun n => by rw [hname]; exact hspreads.kept n, fun n => by
        rw [hname, hstate]; exact hspreads.state n⟩
    · exact ⟨rfl, rfl, hspreads⟩
  case isFalse => exact ⟨rfl, rfl, .refl s⟩

variable (sheet p2) in
theorem foldl_propagateConnection (es : List (Element N)) (cons : List N) (hpn : s.name pn ≠ "") :
    (es.foldl (sheet.propagateConnection pn p2) (s, cons)).1.name =
        ((es.filterMap (beyond p2)).foldl (fill "" (s.name pn)) (s.name, cons)).1 ∧
      (es.foldl (sheet.propagateConnection pn p2) (s, cons)).2 =
        ((es.filterMap (beyond p2)).foldl (fill "" (s.name pn)) (s.name, cons)).2 ∧
      Spreads s (es.foldl (sheet.propagateConnection pn p2) (s, cons)).1 := by
  induction es generalizing s cons with
  | nil => exact ⟨rfl, rfl, .refl s⟩
  | cons e es ih =>
    cases e with
    | component => exact ih cons hpn
    | wire w =>
      obtain ⟨hname, hcons, hspreads⟩ := propagateConnection_wire sheet p2 w cons hpn
      have hkept := hspreads.kept pn hpn
      have hbeyond : (Element.wire w :: es).filterMap (beyond p2) =
          otherPort w p2 :: es.filterMap (beyond p2) := rfl
      rw [hbeyond, foldl_cons, foldl_cons]
      generalize sheet.propagateConnection pn p2 (s, cons) (.wire w) = r at *
      obtain ⟨s', cons'⟩ := r
      obtain ⟨hname', hcons', hspreads'⟩ := ih cons' (by rwa [hkept])
      have hpair : (s'.name, cons') = fill "" (s.name pn) (s.name, cons) (otherPort w p2) :=
        Prod.ext hname hcons
      rw [← hpair, ← hkept]
      exact ⟨hname', hcons', hspreads.trans hspreads'⟩

variable (sheet) in
theorem propagate_eq_flood (fuel : ℕ) (cons : List N) (hpn : s.name pn ≠ "") :
    (sheet.propagate pn fuel cons s).name =
        flood "" (s.name pn) sheet.neighbours fuel cons s.name ∧
      Spreads s (sheet.propagate pn fuel cons s) := by
  induction fuel generalizing s cons with
  | zero => exact ⟨rfl, .refl s⟩
  | succ fuel ih =>
    cases cons with
    | nil => exact ⟨rfl, .refl s⟩
    | cons p2 cons =>
      obtain ⟨hname, hcons, hspreads⟩ :=
        foldl_propagateConnection sheet p2 (sheet.connections p2) cons hpn
      have hkept := hspreads.kept pn hpn
      rw [propagate, flood, neighbours]
      generalize (sheet.connections p2).foldl (sheet.propagateConnection pn p2) (s, cons) = r at *
      obtain ⟨s', cons'⟩ := r
      obtain ⟨hname', hspreads'⟩ := ih cons' (by rwa [hkept])
      dsimp only at *
      refine ⟨hname'.trans ?_, hspreads.trans hspreads'⟩
      rw [hkept, hname, hcons]

variable (sheet) in
/-- **Working on a node** floods its line with its name. -/
theorem workOn_spec (hpn : s.name pn ≠ "") :
    Flooded sheet.Adjacent "" (s.name pn) (· = pn) s.name (sheet.workOn pn s).name ∧
      ∀ n, (sheet.workOn pn s).state n ↔
        (s.state n ∨ n = pn) ∨ (sheet.workOn pn s).name n ≠ s.name n := by
  let s' : Naming N := if sheet.isAnalog then createNodeSet (sheet.label pn) pn s else s
  have hs' : s'.name = s.name ∧ s'.state = s.state := by
    simp only [s']
    split
    · exact createNodeSet_name _ _ _
    · exact ⟨rfl, rfl⟩
  let s'' : Naming N := { s' with state := update s'.state pn true }
  have hname := hs'.1
  have hwork : sheet.workOn pn s = sheet.propagate pn (sheet.docNodes.length + 1) [pn] s'' := rfl
  have hpn'' : s''.name pn ≠ "" := by rwa [hname]
  obtain ⟨hflood, hspreads⟩ := propagate_eq_flood sheet (sheet.docNodes.length + 1) [pn] hpn''
  rw [← hwork, hname] at hflood
  rw [← hwork] at hspreads
  have hadj : (fun p q => q ∈ sheet.neighbours p) = sheet.Adjacent := by
    funext p q
    exact propext mem_neighbours
  refine ⟨?_, fun n => ?_⟩
  · have hvertices : ∀ p, ∀ q ∈ sheet.neighbours p, q ∈ sheet.docNodes :=
      fun p q hq => (mem_neighbours.mp hq).symm.mem
    have hblanks := countP_le_length (p := fun n => decide (s.name n = "")) (l := sheet.docNodes)
    have := flooded_flood sheet.neighbours hpn hvertices (sheet.docNodes.length + 1) [pn]
      (f := s.name) (by
        rw [blanks, length_singleton]
        omega)
    rw [hadj, ← hflood] at this
    simpa using this
  · rw [hspreads.state n, hname]
    refine or_congr_left ?_
    show update s'.state pn true n ↔ _
    rw [hs'.2]
    by_cases h : n = pn
    · simp [h]
    · simp [h]

/-! ## Nodes that have a name -/

theorem FromMarks.workOn (h : FromMarks sheet s) (hmem : pn ∈ sheet.docNodes)
    (hpn : s.name pn ≠ "") : FromMarks sheet (sheet.workOn pn s) := by
  obtain ⟨hflood, hstate⟩ := workOn_spec sheet hpn
  have hkept {n : N} (hn : s.name n ≠ "") : (sheet.workOn pn s).name n ≠ "" := by
    rwa [hflood.kept n hn]
  constructor
  case marked =>
    intro n hn hname
    by_cases hsame : (sheet.workOn pn s).name n = s.name n
    · rw [hsame] at hname ⊢
      exact h.marked n hn hname
    · obtain ⟨hvalue, p, rfl, hlinked⟩ := hflood.filled n hsame
      obtain ⟨m, hm, heq⟩ := h.marked p hmem hpn
      exact ⟨m, hm.of_linked hlinked, hvalue.trans heq⟩
  case named => exact fun n hn m hm => hkept (h.named n hn m hm)
  case full =>
    intro n hn hn' q hq
    rcases (hstate n).mp hn' with (hold | rfl) | hfilled
    · exact hkept (h.full n hn hold q hq)
    · exact hflood.full n (.inl rfl) q hq
    · exact hflood.full n (.inr hfilled) q hq

/-- **After the nodes with names** no name is missing next to one. -/
theorem throughNamedNodes_spec (h : Seeded sheet sheet.MarkAt s) :
    FromMarks sheet (sheet.throughNamedNodes s) ∧
      ∀ n ∈ sheet.docNodes, (sheet.throughNamedNodes s).name n ≠ "" →
        (sheet.throughNamedNodes s).state n := by
  refine foldl_rule (P := fun done s => FromMarks sheet s ∧
    ∀ n ∈ done, s.name n ≠ "" → s.state n) ⟨h.fromMarks, nofun⟩ ?_
  intro done pn rest hnodes ih
  have hmem : pn ∈ sheet.docNodes := hnodes ▸ mem_append_right _ mem_cons_self
  generalize done.foldl _ s = s at ih ⊢
  obtain ⟨hmarks, hdone⟩ := ih
  have hadd {s' : Naming N} (hold : ∀ n ∈ done, s'.name n ≠ "" → s'.state n)
      (hnew : s'.name pn ≠ "" → s'.state pn) :
      ∀ n ∈ done ++ [pn], s'.name n ≠ "" → s'.state n := by
    rw [forall_mem_append]
    exact ⟨hold, by simpa using hnew⟩
  split_ifs with hblank hstate
  · exact ⟨hmarks, hadd hdone fun hname => absurd hblank hname⟩
  · exact ⟨hmarks, hadd hdone fun _ => hstate⟩
  · obtain ⟨hflood, hstate'⟩ := workOn_spec sheet hblank
    refine ⟨hmarks.workOn hmem hblank, hadd (fun n hn hname => ?_) fun _ => ?_⟩
    · by_cases hsame : (sheet.workOn pn s).name n = s.name n
      · exact (hstate' n).mpr (.inl (.inl (hdone n hn (hsame ▸ hname))))
      · exact (hstate' n).mpr (.inr hsame)
    · exact (hstate' pn).mpr (.inl (.inr rfl))

/-! ## Nodes that have none -/

theorem closed_throughNamedNodes (h : Seeded sheet sheet.MarkAt s) :
    Closed sheet (sheet.throughNamedNodes s) := by
  obtain ⟨hmarks, hstate⟩ := throughNamedNodes_spec h
  intro p hp q hpq
  exact hmarks.full p hpq.mem (hstate p hpq.mem hp) q hpq

variable {s₁ : Naming N} {z : ℕ}

/-- **A new name fills one line.** -/
theorem Numbered.nameNode (h : Numbered sheet s₁ s z)
    (hfresh : ∀ n ∈ sheet.docNodes, ∀ k, s₁.name n ≠ sheet.generatedName k) (hpn : s.name pn = "") :
    Numbered sheet s₁ (sheet.workOn pn { s with
      name := Function.update s.name pn (sheet.generatedName z) }) (z + 1) ∧
      ∀ n, s.name n ≠ "" ∨ n = pn → (sheet.workOn pn { s with
        name := Function.update s.name pn (sheet.generatedName z) }).name n ≠ "" := by
  have hne := generatedName_ne_nil sheet z
  have hpn' : update s.name pn (sheet.generatedName z) pn = sheet.generatedName z := update_self ..
  have hstart : ({ s with name := update s.name pn (sheet.generatedName z) } :
      Naming N).name pn ≠ "" := by simpa using hne
  obtain ⟨hflood, -⟩ := workOn_spec sheet hstart
  dsimp only at hflood
  rw [hpn'] at hflood
  generalize sheet.workOn pn { s with
    name := update s.name pn (sheet.generatedName z) } = s' at hflood ⊢
  have hother {n : N} (hn : n ≠ pn) :
      update s.name pn (sheet.generatedName z) n = s.name n :=
    update_of_ne hn _ _
  have hold {n : N} (hn : s.name n ≠ "") : s'.name n = s.name n := by
    have hnpn : n ≠ pn := by
      rintro rfl
      exact hn hpn
    rw [hflood.kept n (by rwa [hother hnpn]), hother hnpn]
  have hnew {n : N} (hn : s.name n = "") (hn' : s'.name n ≠ "") :
      s'.name n = sheet.generatedName z ∧ sheet.Linked pn n := by
    by_cases hnpn : n = pn
    · subst hnpn
      exact ⟨(hflood.kept n (by rwa [hpn'])).trans hpn', .refl⟩
    · obtain ⟨hvalue, p, rfl, hlinked⟩ := hflood.filled n (by rwa [hother hnpn, hn])
      exact ⟨hvalue, hlinked⟩
  have hclosed : Closed sheet s' := by
    intro p hp q hpq
    by_cases hsp : s.name p = ""
    · by_cases hppn : p = pn
      · exact hflood.full p (.inl hppn) q hpq
      · exact hflood.full p (.inr (by rwa [hother hppn, hsp])) q hpq
    · rw [hold (h.closed p hsp q hpq)]
      exact h.closed p hsp q hpq
  have hsource : s'.name pn ≠ "" := by
    rw [hflood.kept pn (by rwa [hpn']), hpn']
    exact hne
  refine ⟨⟨fun n hn => ?_, hclosed, fun n hmem hn₁ hn => ?_⟩, fun n hn => ?_⟩
  · rw [hold (by rwa [h.kept n hn]), h.kept n hn]
  · by_cases hsn : s.name n = ""
    case pos =>
      obtain ⟨hvalue, hlinked⟩ := hnew hsn hn
      refine ⟨z, Nat.lt_succ_self z, hvalue, fun n' hmem' => ⟨fun hn' => ?_, fun hnn' => ?_⟩⟩
      · by_cases hsn' : s.name n' = ""
        · exact hlinked.symm.trans (hnew hsn' (by rwa [hn'])).2
        · rw [hold hsn'] at hn'
          by_cases hn₁' : s₁.name n' = ""
          · obtain ⟨k, hk, heq, -⟩ := h.line n' hmem' hn₁' hsn'
            exact absurd (generatedName_inj (heq.symm.trans hn')) (Nat.ne_of_lt hk)
          · exact absurd ((h.kept n' hn₁').symm.trans hn') (hfresh n' hmem' z)
      · have hreach : sheet.Linked pn n' := hlinked.trans hnn'
        have hsn' : s.name n' = "" := by
          by_contra hsn'
          exact (h.closed.iff_of_linked hreach).mpr hsn' hpn
        exact (hnew hsn' ((hclosed.iff_of_linked hreach).mp hsource)).1
    case neg =>
      obtain ⟨k, hk, heq, hline⟩ := h.line n hmem hn₁ hsn
      refine ⟨k, Nat.lt_succ_of_lt hk, (hold hsn).trans heq, fun n' hmem' => ?_⟩
      by_cases hsn' : s.name n' = ""
      · refine iff_of_false (fun hn' => ?_) fun hnn' => (h.closed.iff_of_linked hnn').mp hsn hsn'
        have hvalue := (hnew hsn' (by rw [hn']; exact generatedName_ne_nil sheet k)).1
        exact Nat.ne_of_lt hk (generatedName_inj (hn'.symm.trans hvalue))
      · rw [hold hsn']
        exact hline n' hmem'
  · rcases hn with hn | rfl
    · rwa [hold hn]
    · exact hsource

/-- **After the nodes without names** every node has one. -/
theorem throughUnnamedNodes_spec (hclosed : Closed sheet s)
    (hfresh : ∀ n ∈ sheet.docNodes, ∀ k, s.name n ≠ sheet.generatedName k) :
    ∃ z, Numbered sheet s (sheet.throughUnnamedNodes s) z ∧
      ∀ n ∈ sheet.docNodes, (sheet.throughUnnamedNodes s).name n ≠ "" := by
  refine ⟨_, foldl_rule (P := fun done (r : Naming N × ℕ) => Numbered sheet s r.1 r.2 ∧
    ∀ n ∈ done, r.1.name n ≠ "") ⟨⟨fun _ _ => rfl, hclosed, fun n _ h h' => absurd h h'⟩, nofun⟩
    ?_⟩
  intro done pn rest _ ih
  generalize done.foldl sheet.nameNode (s, 0) = r at ih ⊢
  obtain ⟨hnumbered, hdone⟩ := ih
  rw [Sheet.nameNode]
  split_ifs with hname
  · refine ⟨hnumbered, forall_mem_append.mpr ⟨hdone, by simpa using hname⟩⟩
  · have hblank : r.1.name pn = "" := not_not.mp hname
    obtain ⟨hnumbered', hnames⟩ := hnumbered.nameNode hfresh hblank
    refine ⟨hnumbered', forall_mem_append.mpr ⟨fun n hn => ?_, ?_⟩⟩
    · exact hnames n (.inl (hdone n hn))
    · simpa using hnames pn (.inr rfl)

/-! ## The names of the marks -/

theorem deleteNames_spec (s : Naming N) (hn : n ∈ sheet.docNodes) :
    (sheet.deleteNames s).name n = (sheet.label n).elim "" sheet.userName ∧
      (sheet.deleteNames s).state n = false := by
  refine foldl_rule (b := s) (P := fun done s => ∀ n ∈ done,
    s.name n = (sheet.label n).elim "" sheet.userName ∧ s.state n = false) nofun ?_ n hn
  intro done pn rest _ ih n hn
  by_cases h : n = pn
  · simp [h]
  · have hmem : n ∈ done := by simpa [h] using hn
    simpa [update_of_ne h] using ih n hmem

/-- The marks of some of the wires and components. -/
def MarkOf (sheet : Sheet N) (wires : List (Wire N)) (comps : List (Component N)) (n : N)
    (m : Mark) : Prop :=
  (∃ l, sheet.label n = some l ∧ m = .label l.name) ∨
    (∃ w ∈ wires, ∃ l, w.label = some l ∧ w.port1 = n ∧ m = .label l.name) ∨
    ∃ c ∈ comps, c.isActive ∧ c.isGround ∧ c.connection = n ∧ m = .ground

omit [DecidableEq N] in
theorem markOf_all : sheet.MarkOf sheet.docWires sheet.docComps = sheet.MarkAt := by
  funext n m
  refine propext ⟨?_, ?_⟩
  · rintro (⟨l, hl, rfl⟩ | ⟨w, hw, l, hl, rfl, rfl⟩ | ⟨c, hc, hactive, hground, rfl, rfl⟩)
    · exact .node hl
    · exact .wire hw hl
    · exact .ground hc hactive hground
  · rintro (hl | ⟨hw, hl⟩ | ⟨hc, hactive, hground⟩)
    · exact .inl ⟨_, hl, rfl⟩
    · exact .inr (.inl ⟨_, hw, _, hl, rfl, rfl⟩)
    · exact .inr (.inr ⟨_, hc, hactive, hground, rfl, rfl⟩)

theorem Seeded.update {M : N → Mark → Prop} (h : Seeded sheet M s) {p : N}
    (hm : sheet.markName m ≠ "") :
    Seeded sheet (fun n m' => M n m' ∨ n = p ∧ m' = m)
      { s with name := Function.update s.name p (sheet.markName m) } := by
  refine ⟨fun n hn hname => ?_, fun n hn m' hm' => ?_, h.state⟩ <;> by_cases hnp : n = p
  · exact ⟨m, .inr ⟨hnp, rfl⟩, by simp [hnp]⟩
  · dsimp only at hname ⊢
    rw [update_of_ne hnp] at hname ⊢
    obtain ⟨m', hm', heq⟩ := h.marked n hn hname
    exact ⟨m', .inl hm', heq⟩
  · simpa [hnp] using hm
  · dsimp only
    rw [update_of_ne hnp]
    exact h.named n hn m' (hm'.resolve_right fun h => hnp h.1)

/-- Labels start with a letter, so the names of the marks are not empty. -/
theorem seeded_deleteNames (h : LettersFirst sheet) (s : Naming N) :
    Seeded sheet (sheet.MarkOf [] []) (sheet.deleteNames s) := by
  refine ⟨fun n hn hname => ?_, ?_, fun n hn => (deleteNames_spec s hn).2⟩
  · rw [(deleteNames_spec s hn).1] at hname ⊢
    cases hlabel : sheet.label n with
    | none => simp [hlabel] at hname
    | some l => exact ⟨.label l.name, .inl ⟨l, hlabel, rfl⟩, rfl⟩
  · rintro n hn m (⟨l, hl, rfl⟩ | ⟨w, hw, -⟩ | ⟨c, hc, -⟩)
    · rw [(deleteNames_spec s hn).1, hl]
      exact markName_ne_nil h (.node hl)
    · cases hw
    · cases hc

theorem seeded_nameWires (h : LettersFirst sheet) (hs : Seeded sheet (sheet.MarkOf [] []) s) :
    Seeded sheet (sheet.MarkOf sheet.docWires []) (sheet.nameWires s) := by
  refine foldl_rule (P := fun done s => Seeded sheet (sheet.MarkOf done []) s) hs ?_
  intro done w rest hwires ih
  have hw : w ∈ sheet.docWires := hwires ▸ mem_append_right _ mem_cons_self
  generalize done.foldl _ s = s at ih ⊢
  cases hlabel : w.label with
  | none =>
    have hmarks : sheet.MarkOf (done ++ [w]) [] = sheet.MarkOf done [] := by
      funext n m
      simp [MarkOf, or_and_right, exists_or, hlabel]
    rwa [hmarks]
  | some l =>
    have hmarks : sheet.MarkOf (done ++ [w]) [] =
        fun n m => sheet.MarkOf done [] n m ∨ n = w.port1 ∧ m = .label l.name := by
      funext n m
      simp only [MarkOf, mem_append, mem_singleton, or_and_right, exists_or,
        exists_eq_left, hlabel, some.injEq, not_mem_nil, false_and, exists_false,
        or_false, or_assoc, eq_comm (a := n)]
      simp
    rw [hmarks]
    exact ih.update (markName_ne_nil h (.wire hw hlabel))

theorem throughComp_none {pc : Component N} :
    throughComp s pc = none ↔ pc.isActive ∧ pc.fails := by
  rw [throughComp]
  split_ifs <;> simp_all

theorem seeded_throughComp {wires : List (Wire N)} {comps : List (Component N)} {pc : Component N}
    {s' : Naming N} (hs : Seeded sheet (sheet.MarkOf wires comps) s)
    (h : throughComp s pc = some s') : Seeded sheet (sheet.MarkOf wires (comps ++ [pc])) s' := by
  have hmarks : sheet.MarkOf wires (comps ++ [pc]) = fun n m => sheet.MarkOf wires comps n m ∨
      (pc.isActive ∧ pc.isGround) ∧ n = pc.connection ∧ m = .ground := by
    funext n m
    simp only [MarkOf, mem_append, mem_singleton, or_and_right, exists_or,
      exists_eq_left, or_assoc, eq_comm (a := n), and_assoc]
  have hsame (hno : ¬(pc.isActive ∧ pc.isGround)) :
      Seeded sheet (sheet.MarkOf wires (comps ++ [pc])) s := by
    rw [hmarks]
    simpa only [hno, false_and, or_false] using hs
  rw [throughComp] at h
  split_ifs at h with hactive hfails hground
  · obtain rfl := some.inj h
    exact hsame fun h => by simp [h.1] at hactive
  · obtain rfl := some.inj h
    have hground : pc.isActive ∧ pc.isGround := ⟨by simpa using hactive, hground⟩
    rw [hmarks]
    simp only [hground, and_self, true_and]
    exact hs.update (by simp [markName])
  · obtain rfl := some.inj h
    exact hsame fun h => hground h.2

theorem seeded_throughAllComps {s' : Naming N}
    (hs : Seeded sheet (sheet.MarkOf sheet.docWires []) s)
    (h : sheet.throughAllComps s = some s') : Seeded sheet sheet.MarkAt s' := by
  have hrest : ∀ (comps done : List (Component N)) (s : Naming N),
      Seeded sheet (sheet.MarkOf sheet.docWires done) s → comps.foldlM throughComp s = some s' →
      Seeded sheet (sheet.MarkOf sheet.docWires (done ++ comps)) s' := by
    intro comps
    induction comps with
    | nil =>
      intro done s hs h
      obtain rfl := some.inj h
      rwa [append_nil]
    | cons pc comps ih =>
      intro done s hs h
      obtain ⟨s₁, hs₁, h⟩ := Option.bind_eq_some_iff.mp h
      rw [append_cons]
      exact ih _ s₁ (seeded_throughComp hs hs₁) h
  rw [← markOf_all]
  exact hrest sheet.docComps [] s hs h

theorem throughAllComps_none : sheet.throughAllComps s = none ↔
    ∃ pc ∈ sheet.docComps, pc.isActive ∧ pc.fails := by
  constructor
  · intro h
    by_contra hno
    obtain ⟨s', hs'⟩ := foldlM_returns
      (fun pc hpc s => Option.ne_none_iff_exists'.mp fun hnone =>
        hno ⟨pc, hpc, throughComp_none.mp hnone⟩) s
    exact absurd (hs'.symm.trans h) nofun
  · rintro ⟨pc, hpc, hfails⟩
    exact foldlM_none hpc (fun s => throughComp_none.mpr hfails) s

/-! ## The result -/

def Unambiguous (sheet : Sheet N) : Prop :=
  ∀ n ∈ sheet.docNodes, ∀ m m', sheet.Carries n m → sheet.Carries n m' → sheet.SameMark m m'

omit [DecidableEq N] in
theorem FromMarks.name_of_carries (h : FromMarks sheet s) (hclosed : Closed sheet s)
    (hunambiguous : Unambiguous sheet) (hn : n ∈ sheet.docNodes)
    (hm : sheet.Carries n m) : s.name n ≠ "" ∧ s.name n = sheet.markName m := by
  obtain ⟨n', hlinked, hmark⟩ := hm
  have hname : s.name n ≠ "" :=
    (hclosed.iff_of_linked hlinked).mpr (h.named n' (hlinked.mem hn) m hmark)
  obtain ⟨m', hm', heq⟩ := h.marked n hn hname
  refine ⟨hname, heq.trans (markName_eq_iff.mpr ?_)⟩
  exact hunambiguous n hn m' m hm' ⟨n', hlinked, hmark⟩

omit [DecidableEq N] in
theorem Numbered.name_eq_iff (h : Numbered sheet s₁ s z)
    (hnames : ∀ n ∈ sheet.docNodes, s.name n ≠ "") (hmarks : FromMarks sheet s₁)
    (hclosed : Closed sheet s₁) (hunambiguous : Unambiguous sheet)
    (ha : a ∈ sheet.docNodes) (hb : b ∈ sheet.docNodes) :
    s.name a = s.name b ↔ sheet.Linked a b ∨
      ∃ m m', sheet.Carries a m ∧ sheet.Carries b m' ∧ sheet.SameMark m m' := by
  have hcarried {n : N} (hn : n ∈ sheet.docNodes) {m : Mark} (hm : sheet.Carries n m) :=
    hmarks.name_of_carries hclosed hunambiguous hn hm
  by_cases ha₁ : s₁.name a = ""
  · obtain ⟨k, -, heq, hline⟩ := h.line a ha ha₁ (hnames a ha)
    rw [heq, eq_comm, hline b hb, or_iff_left]
    rintro ⟨m, -, hm, -⟩
    exact (hcarried ha hm).1 ha₁
  by_cases hb₁ : s₁.name b = ""
  · obtain ⟨k, -, heq, hline⟩ := h.line b hb hb₁ (hnames b hb)
    rw [heq, hline a ha, or_iff_left]
    · exact ⟨Linked.symm, Linked.symm⟩
    · rintro ⟨-, m, -, hm, -⟩
      exact (hcarried hb hm).1 hb₁
  · obtain ⟨m, hm, heq⟩ := hmarks.marked a ha ha₁
    rw [h.kept a ha₁, h.kept b hb₁]
    constructor
    · intro hab
      obtain ⟨m', hm', heq'⟩ := hmarks.marked b hb hb₁
      exact .inr ⟨m, m', hm, hm', markName_eq_iff.mp (heq.symm.trans (hab.trans heq'))⟩
    · rintro (hab | ⟨m₁, m₂, hm₁, hm₂, hsame⟩)
      · rw [heq, (hcarried hb (hm.of_linked hab)).2]
      · rw [(hcarried ha hm₁).2, (hcarried hb hm₂).2]
        exact markName_eq_iff.mpr hsame

/-- **Node names are connectivity.**  The names are given unless an active component
fails; then two nodes have the same name iff they are linked or their lines
carry the same label or are both grounded. -/
theorem giveNodeNames_connectivity (sheet : Sheet N) (s : Naming N) (hletters : LettersFirst sheet)
    (hunambiguous : Unambiguous sheet) :
    (sheet.giveNodeNames s = none ↔ ∃ pc ∈ sheet.docComps, pc.isActive ∧ pc.fails) ∧
    ∀ s', sheet.giveNodeNames s = some s' → ∀ a ∈ sheet.docNodes, ∀ b ∈ sheet.docNodes,
      (s'.name a = s'.name b ↔ sheet.Linked a b ∨
        ∃ m m', sheet.Carries a m ∧ sheet.Carries b m' ∧ sheet.SameMark m m') := by
  constructor
  · rw [giveNodeNames, ← throughAllComps_none]
    cases sheet.throughAllComps (sheet.nameWires (sheet.deleteNames s)) <;> simp
  intro s' hs'
  obtain ⟨s₀, hs₀, hgive⟩ := Option.bind_eq_some_iff.mp hs'
  obtain rfl := some.inj hgive
  have hseeded := seeded_throughAllComps
    (seeded_nameWires hletters (seeded_deleteNames hletters s)) hs₀
  obtain ⟨hmarks, -⟩ := throughNamedNodes_spec hseeded
  have hclosed := closed_throughNamedNodes hseeded
  have hfresh : ∀ n ∈ sheet.docNodes, ∀ k,
      (sheet.throughNamedNodes s₀).name n ≠ sheet.generatedName k := by
    intro n hn k heq
    have hname : (sheet.throughNamedNodes s₀).name n ≠ "" := by
      rw [heq]
      exact generatedName_ne_nil sheet k
    obtain ⟨m, ⟨n', -, hm⟩, hmark⟩ := hmarks.marked n hn hname
    exact generatedName_ne hletters hm k (heq.symm.trans hmark)
  obtain ⟨z, hnumbered, hnames⟩ := throughUnnamedNodes_spec hclosed hfresh
  intro a ha b hb
  exact hnumbered.name_eq_iff hnames hmarks hclosed hunambiguous ha hb

/-- Two nodes with a wire between them and two more; the third has a label, the last
is grounded. -/
def sampleSheet (label : String) : Sheet (Fin 4) where
  docNodes := [0, 1, 2, 3]
  docWires := [⟨0, 1, none⟩]
  docComps := [⟨true, true, 3, false⟩]
  label n := if n = 2 then some ⟨label, ""⟩ else none
  connections n := if n = 0 ∨ n = 1 then [.wire ⟨0, 1, none⟩] else [.component]
  isAnalog := true
  ports_mem := by decide
  mem_connections n w := by
    by_cases h : n = 0 ∨ n = 1
    · simp only [h, if_true, List.mem_singleton, Element.wire.injEq]
      constructor
      · rintro rfl
        exact ⟨rfl, by simpa [eq_comm] using h⟩
      · exact And.left
    · simp only [h, if_false, List.mem_singleton, reduceCtorEq, false_iff, not_and]
      rintro rfl hn
      exact h (by simpa [eq_comm] using hn)

theorem sampleSheet_carries {label : String} {n : Fin 4}
    (h : (sampleSheet label).Carries n m) : n = 2 ∧ m = .label label ∨ n = 3 ∧ m = .ground := by
  obtain ⟨n', hlinked, hmark⟩ := h
  rw [← markOf_all] at hmark
  have hplace : n' = 2 ∧ m = .label label ∨ n' = 3 ∧ m = .ground := by
    rcases hmark with ⟨l, hl, rfl⟩ | ⟨w, hw, l, hl, -⟩ | ⟨c, hc, -, -, rfl, rfl⟩
    · have hl : (if n' = 2 then some (Label.mk label "") else none) = some l := hl
      split_ifs at hl with hn'
      obtain rfl := some.inj hl
      exact .inl ⟨hn', rfl⟩
    · obtain rfl := mem_singleton.mp hw
      cases hl
    · obtain rfl := mem_singleton.mp hc
      exact .inr ⟨rfl, rfl⟩
  have hsame : n = n' := by
    rcases ReflTransGen.cases_tail hlinked with heq | ⟨b, -, w, hw, hends⟩
    · exact heq.symm
    · obtain rfl := mem_singleton.mp hw
      rcases hplace with ⟨rfl, -⟩ | ⟨rfl, -⟩ <;> simp at hends
  rwa [hsame]

theorem giveNodeNames_sample : ∃ s',
    (sampleSheet "out").giveNodeNames ⟨fun _ => "", fun _ => false, [], 0⟩ = some s' ∧
      s'.name 0 = s'.name 1 ∧ s'.name 1 ≠ s'.name 2 := by
  have hletters : LettersFirst (sampleSheet "out") := by
    intro n l hl
    rcases sampleSheet_carries ⟨n, .refl, hl⟩ with ⟨-, heq⟩ | ⟨-, heq⟩
    · obtain rfl := Mark.label.inj heq
      exact ⟨'o', ['u', 't'], rfl, by decide⟩
    · cases heq
  have hunambiguous : Unambiguous (sampleSheet "out") := by
    intro n _ m m' hm hm'
    have hm := sampleSheet_carries hm
    have hm' := sampleSheet_carries hm'
    exact .inl (by grind)
  obtain ⟨hnone, hnames⟩ := giveNodeNames_connectivity (sampleSheet "out")
    ⟨fun _ => "", fun _ => false, [], 0⟩ hletters hunambiguous
  obtain ⟨s', hs'⟩ := Option.ne_none_iff_exists'.mp fun h => absurd (hnone.mp h) (by decide)
  refine ⟨s', hs', (hnames s' hs' 0 (by decide) 1 (by decide)).mpr (.inl ?_), fun heq => ?_⟩
  · exact .single ⟨⟨0, 1, none⟩, mem_singleton.mpr rfl, .inl ⟨rfl, rfl⟩⟩
  · rcases (hnames s' hs' 1 (by decide) 2 (by decide)).mp heq with hlinked | ⟨m, -, hm, -⟩
    · have := sampleSheet_carries ⟨2, hlinked, .node rfl⟩
      simp at this
    · simpa using sampleSheet_carries hm

/-- A label `gnd` and a ground symbol give two lines the same name. -/
theorem giveNodeNames_gnd : ∃ s',
    (sampleSheet "gnd").giveNodeNames ⟨fun _ => "", fun _ => false, [], 0⟩ = some s' ∧
      s'.name 2 = s'.name 3 ∧ ¬(sampleSheet "gnd").Linked 2 3 ∧
      (∀ n m m', (sampleSheet "gnd").Carries n m → (sampleSheet "gnd").Carries n m' → m = m') ∧
      ¬∃ m, (sampleSheet "gnd").Carries 2 m ∧ (sampleSheet "gnd").Carries 3 m := by
  refine ⟨_, rfl, by decide, fun hlinked => ?_, fun n m m' hm hm' => ?_, ?_⟩
  · have hground : (sampleSheet "gnd").MarkAt 3 .ground :=
      .ground (c := ⟨true, true, 3, false⟩) mem_cons_self rfl rfl
    have := sampleSheet_carries ⟨3, hlinked, hground⟩
    simp at this
  · have hm := sampleSheet_carries hm
    have hm' := sampleSheet_carries hm'
    grind
  · rintro ⟨m, hm, hm'⟩
    have hm := sampleSheet_carries hm
    have hm' := sampleSheet_carries hm'
    grind

end Sheet

end Qucs.Schematic
