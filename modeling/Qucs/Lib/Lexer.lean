/-
# Scanners that take the longest match

A scanner has rules with a pattern each. At every place it takes the rule that
matches most characters, and the first one of them if there are several; a
character that no rule matches is passed over. `scan` runs with fuel, and
`Scans` says what it yields with enough of it, whatever the amount.

`Scanner.Scans.token` is the rule to use: the text of a token is matched by its
rule, no rule matches more, and no earlier rule matches as much. That no rule
matches more is read off the patterns (`stops`): the character after the token
does not occur in them, or the first character of the token starts none of their
words (`letters`, `firsts`).
-/
import Mathlib

namespace Lib.Lexer

open RegularExpression List

variable {α : Type*} [DecidableEq α]

/-! ## Patterns -/

section Patterns

omit [DecidableEq α]

/-- `[...]`. -/
def oneOf (cs : List α) : RegularExpression α := cs.foldr (fun a r => char a + r) 0

/-- `"..."`. -/
def word (w : List α) : RegularExpression α := w.foldr (fun a r => char a * r) 1

/-- `r+`. -/
def many (r : RegularExpression α) : RegularExpression α := r * star r

/-- `r?`. -/
def maybe (r : RegularExpression α) : RegularExpression α := r + 1

variable {w : List α}

theorem mem_char {a : α} : w ∈ (char a).matches' ↔ w = [a] := Iff.rfl

theorem mem_mul {r q : RegularExpression α} :
    w ∈ (r * q).matches' ↔ ∃ u ∈ r.matches', ∃ v ∈ q.matches', u ++ v = w := by
  rw [matches'_mul, Language.mem_mul]

theorem mem_add {r q : RegularExpression α} :
    w ∈ (r + q).matches' ↔ w ∈ r.matches' ∨ w ∈ q.matches' := by
  rw [matches'_add, Language.mem_add]

variable {cs : List α}

theorem mem_oneOf : w ∈ (oneOf cs).matches' ↔ ∃ a ∈ cs, w = [a] := by
  induction cs with
  | nil => simp [oneOf]
  | cons c cs ih =>
    show w ∈ (char c + oneOf cs).matches' ↔ _
    rw [mem_add, ih, mem_char]
    simp

theorem mem_word {w v : List α} : v ∈ (word w).matches' ↔ v = w := by
  induction w generalizing v with
  | nil => simp [word, Language.mem_one]
  | cons a w ih =>
    show v ∈ (char a * word w).matches' ↔ _
    rw [mem_mul]
    constructor
    · rintro ⟨u, hu, v, hv, rfl⟩
      rw [mem_char.mp hu, ih.mp hv, singleton_append]
    · rintro rfl
      exact ⟨[a], rfl, w, ih.mpr rfl, rfl⟩

variable {r : RegularExpression α}

theorem mem_maybe : w ∈ (maybe r).matches' ↔ w ∈ r.matches' ∨ w = [] := by
  rw [maybe, mem_add, matches'_epsilon, Language.mem_one]

theorem mem_star_oneOf : w ∈ (star (oneOf cs)).matches' ↔ ∀ a ∈ w, a ∈ cs := by
  constructor
  · rintro ⟨L, rfl, hL⟩ a ha
    obtain ⟨v, hv, hav⟩ := mem_flatten.mp ha
    obtain ⟨b, hb, rfl⟩ := mem_oneOf.mp (hL v hv)
    rwa [mem_singleton.mp hav]
  · intro h
    refine ⟨w.map fun a => [a], ?_, ?_⟩
    · rw [← flatMap_def, flatMap_singleton']
    · intro v hv
      obtain ⟨a, ha, rfl⟩ := mem_map.mp hv
      exact mem_oneOf.mpr ⟨a, h a ha, rfl⟩

theorem mem_many_oneOf : w ∈ (many (oneOf cs)).matches' ↔ w ≠ [] ∧ ∀ a ∈ w, a ∈ cs := by
  constructor
  · rintro ⟨u, hu, v, hv, rfl⟩
    obtain ⟨a, ha, rfl⟩ := mem_oneOf.mp hu
    refine ⟨by simp, ?_⟩
    simpa [ha] using mem_star_oneOf.mp hv
  · rintro ⟨hne, h⟩
    obtain ⟨a, w, rfl⟩ := exists_cons_of_ne_nil hne
    refine ⟨[a], mem_oneOf.mpr ⟨a, h a mem_cons_self, rfl⟩, w, ?_, rfl⟩
    exact mem_star_oneOf.mpr fun b hb => h b (mem_cons_of_mem _ hb)

/-- The characters of a pattern. -/
def letters : RegularExpression α → List α
  | .zero => []
  | .epsilon => []
  | .char a => [a]
  | .plus r q => letters r ++ letters q
  | .comp r q => letters r ++ letters q
  | .star r => letters r

theorem mem_letters (h : w ∈ r.matches') : ∀ a ∈ w, a ∈ letters r := by
  induction r generalizing w with
  | zero => exact absurd h (Language.notMem_zero w)
  | epsilon =>
    rw [one_def, matches'_epsilon, Language.mem_one] at h
    simp [h]
  | char b =>
    have h : w = [b] := h
    simp [h, letters]
  | plus r q hr hq =>
    intro a ha
    rcases mem_add.mp h with h | h
    · exact mem_append_left _ (hr h a ha)
    · exact mem_append_right _ (hq h a ha)
  | comp r q hr hq =>
    obtain ⟨u, hu, v, hv, rfl⟩ := mem_mul.mp h
    intro a ha
    rcases mem_append.mp ha with ha | ha
    · exact mem_append_left _ (hr hu a ha)
    · exact mem_append_right _ (hq hv a ha)
  | star r hr =>
    obtain ⟨L, rfl, hL⟩ := Language.mem_kstar.mp h
    intro a ha
    obtain ⟨v, hv, hav⟩ := mem_flatten.mp ha
    exact hr (hL v hv) a hav

/-- The characters that words of a pattern begin with. -/
def firsts : RegularExpression α → List α
  | .zero => []
  | .epsilon => []
  | .char a => [a]
  | .plus r q => firsts r ++ firsts q
  | .comp r q => firsts r ++ if r.matchEpsilon then firsts q else []
  | .star r => firsts r

end Patterns

variable {r : RegularExpression α}

theorem matchEpsilon_of_nil (h : [] ∈ r.matches') :
    r.matchEpsilon := (rmatch_iff_matches' r []).mpr h

variable {a : α} {w : List α}

theorem mem_firsts (h : a :: w ∈ r.matches') : a ∈ firsts r := by
  induction r generalizing w with
  | zero => exact absurd h (Language.notMem_zero _)
  | epsilon =>
    cases h
  | char b =>
    simp [(cons.inj h).1, firsts]
  | plus r q hr hq =>
    rcases mem_add.mp h with h | h
    · exact mem_append_left _ (hr h)
    · exact mem_append_right _ (hq h)
  | comp r q hr hq =>
    obtain ⟨u, hu, v, hv, huv⟩ := mem_mul.mp h
    cases u with
    | nil =>
      rw [nil_append] at huv
      subst huv
      refine mem_append_right _ ?_
      rw [if_pos (matchEpsilon_of_nil hu)]
      exact hq hv
    | cons b u =>
      obtain ⟨rfl, -⟩ := cons.inj huv
      exact mem_append_left _ (hr hu)
  | star r hr =>
    obtain ⟨L, hw, hL⟩ := Language.mem_kstar.mp h
    induction L with
    | nil => cases hw
    | cons u L ih =>
      cases u with
      | nil => exact ih (by simpa using hw) fun v hv => hL v (mem_cons_of_mem _ hv)
      | cons b u =>
        obtain ⟨rfl, -⟩ := cons.inj hw
        exact hr (hL _ mem_cons_self)

theorem mem_firsts_deriv {a b : α} (h : a :: b :: w ∈ r.matches') : b ∈ firsts (r.deriv a) := by
  rw [← rmatch_iff_matches', rmatch, rmatch_iff_matches'] at h
  exact mem_firsts h

/-! ## The longest match -/

def longestUpTo (r : RegularExpression α) (s : List α) : ℕ → Option ℕ
  | 0 => none
  | n + 1 => if r.rmatch (s.take (n + 1)) then some (n + 1) else longestUpTo r s n

/-- How many characters a pattern matches, at least one. -/
def matchLength (r : RegularExpression α) (s : List α) : Option ℕ := longestUpTo r s s.length

variable {s : List α} {n : ℕ}

theorem matchLength_some (h : matchLength r s = some n) : s.take n ∈ r.matches' ∧ n ≤ s.length := by
  have upTo : ∀ m, longestUpTo r s m = some n → s.take n ∈ r.matches' ∧ n ≤ m := by
    intro m
    induction m with
    | zero => exact fun h => nomatch h
    | succ m ih =>
      intro h
      rw [longestUpTo] at h
      split at h
      case isTrue hmatch =>
        obtain rfl := Option.some.inj h
        exact ⟨(rmatch_iff_matches' _ _).mp hmatch, le_rfl⟩
      case isFalse => exact ⟨(ih h).1, (ih h).2.trans m.le_succ⟩
  exact upTo _ h

/-- No word of the pattern that the text begins with is longer. -/
def Bounded (r : RegularExpression α) (s : List α) (n : ℕ) : Prop :=
  ∀ v ∈ r.matches', v <+: s → v.length ≤ n

theorem matchLength_le {n m : ℕ} (hr : Bounded r s m) (h : matchLength r s = some n) : n ≤ m := by
  obtain ⟨hmem, hlen⟩ := matchLength_some h
  have := hr _ hmem <| take_prefix n s
  rwa [length_take, min_eq_left hlen] at this

variable {rest : List α}

theorem matchLength_eq (hw : w ∈ r.matches') (hne : w ≠ []) (hr : Bounded r (w ++ rest) w.length) :
    matchLength r (w ++ rest) = some w.length := by
  have hpos := length_pos_of_ne_nil hne
  have upTo : ∀ m, w.length ≤ m → m ≤ (w ++ rest).length →
      longestUpTo r (w ++ rest) m = some w.length := by
    intro m
    induction m with
    | zero => omega
    | succ m ih =>
      intro hle hlen
      rw [longestUpTo]
      split
      case isTrue hmatch =>
        have := hr _ ((rmatch_iff_matches' _ _).mp hmatch) <| take_prefix _ _
        rw [length_take, min_eq_left hlen] at this
        rw [le_antisymm hle this]
      case isFalse hmatch =>
        refine ih (Nat.lt_succ_iff.mp (lt_of_le_of_ne hle fun heq => hmatch ?_)) (by omega)
        rw [show m + 1 = w.length from heq.symm, take_left]
        exact (rmatch_iff_matches' _ _).mpr hw
  exact upTo _ (by simp) le_rfl

omit [DecidableEq α] in
/-- The character after the token does not occur in the pattern. -/
theorem bounded_of_letters
    (h : ∀ c ∈ rest.head?, c ∉ letters r) : Bounded r (w ++ rest) w.length := by
  intro v hv hbegins
  cases rest with
  | nil =>
    rw [append_nil] at hbegins
    exact hbegins.length_le
  | cons c rest =>
    by_contra hlong
    have hlt := not_le.mp hlong
    have hc : v[w.length] = c := by
      rw [hbegins.getElem hlt]
      simp
    exact h c rfl (mem_letters hv c (hc ▸ getElem_mem hlt))

/-- The first character of the token starts no word of the pattern. -/
theorem bounded_of_firsts (h : a ∉ firsts r) : Bounded r (a :: s) n := by
  intro v hv hbegins
  cases v with
  | nil => exact Nat.zero_le n
  | cons b v =>
    obtain ⟨rfl, -⟩ := cons_prefix_cons.mp hbegins
    exact absurd (mem_firsts hv) h

/-- Whether a token that begins with one of `first` and is followed by one of
`next` is as long as any word of the pattern there. -/
def stops (first next : List α) : RegularExpression α → Bool
  | .zero => true
  | .epsilon => true
  | .char _ => true
  | .plus r q => stops first next r && stops first next q
  | .comp r q => parts (.comp r q)
  | .star r => parts (.star r)
where
  /-- Nothing goes on with `next`, or nothing begins with `first`. -/
  parts (r : RegularExpression α) : Bool := next.all (· ∉ letters r) || first.all (· ∉ firsts r)

theorem bounded_of_stops {first next w rest : List α}
    (ha : a ∈ first) (hnext : ∀ c ∈ rest.head?, c ∈ next) (h : stops first next r) :
    Bounded r (a :: w ++ rest) (a :: w).length := by
  have hparts : ∀ {q}, stops.parts first next q → Bounded q (a :: w ++ rest) (a :: w).length := by
    intro q hq
    rcases Bool.or_eq_true_iff.mp hq with hq | hq
    · exact bounded_of_letters fun c hc => by simpa using all_eq_true.mp hq c (hnext c hc)
    · exact bounded_of_firsts (by simpa using all_eq_true.mp hq a ha)
  induction r with
  | zero => exact fun v hv => absurd hv (Language.notMem_zero v)
  | epsilon =>
    intro v hv _
    have hv : v = [] := hv
    simp [hv]
  | char b =>
    intro v hv _
    simp [mem_char.mp hv]
  | plus r q hr hq =>
    obtain ⟨h₁, h₂⟩ := Bool.and_eq_true_iff.mp h
    intro v hv
    rcases mem_add.mp hv with hv | hv
    · exact hr h₁ v hv
    · exact hq h₂ v hv
  | comp r q => exact hparts h
  | star r => exact hparts h

/-- The rule that matches most characters, the first one of them. -/
def best {ρ : Type*} (pattern : ρ → RegularExpression α) (s : List α) : List ρ → Option (ρ × ℕ)
  | [] => none
  | r :: rules =>
    match matchLength (pattern r) s, best pattern s rules with
    | none, later => later
    | some n, none => some (r, n)
    | some n, some (r', m) => if m > n then some (r', m) else some (r, n)

section Best

variable {ρ : Type*} {pattern : ρ → RegularExpression α}

theorem best_some {s : List α} {rules : List ρ} {r : ρ} {n : ℕ}
    (h : best pattern s rules = some (r, n)) : r ∈ rules ∧ matchLength (pattern r) s = some n := by
  induction rules with
  | nil => cases h
  | cons r' rules ih =>
    rw [best] at h
    split at h
    · exact ⟨mem_cons_of_mem _ (ih h).1, (ih h).2⟩
    · cases h
      exact ⟨mem_cons_self, by assumption⟩
    · rename_i heq
      split at h
      · cases h
        exact ⟨mem_cons_of_mem _ (ih heq).1, (ih heq).2⟩
      · cases h
        exact ⟨mem_cons_self, by assumption⟩

/-- **The rule that is taken.** -/
theorem best_eq {before after : List ρ} {r : ρ} {w rest : List α} (hw : w ∈ (pattern r).matches')
    (hne : w ≠ []) (hmax : ∀ r' ∈ before ++ r :: after, Bounded (pattern r') (w ++ rest) w.length)
    (hbefore : ∀ r' ∈ before, w ∉ (pattern r').matches') :
    best pattern (w ++ rest) (before ++ r :: after) = some (r, w.length) := by
  induction before with
  | nil =>
    have hlength := matchLength_eq hw hne (hmax r mem_cons_self)
    rw [nil_append, best, hlength]
    cases hlater : best pattern (w ++ rest) after with
    | none => rfl
    | some later =>
      obtain ⟨hmem, hlater⟩ := best_some hlater
      have hle := matchLength_le (hmax _ (mem_cons_of_mem _ hmem)) hlater
      exact if_neg (not_lt.mpr hle)
  | cons r' before ih =>
    have hrest := ih (fun r'' h => hmax r'' (mem_cons_of_mem _ h)) fun r'' h =>
      hbefore r'' (mem_cons_of_mem _ h)
    rw [cons_append, best, hrest]
    cases hlength : matchLength (pattern r') (w ++ rest) with
    | none => rfl
    | some n =>
      have hle := matchLength_le (hmax r' mem_cons_self) hlength
      have hne : n ≠ w.length := by
        rintro rfl
        refine hbefore r' mem_cons_self ?_
        simpa using (matchLength_some hlength).1
      exact if_pos (lt_of_le_of_ne hle hne)

end Best

/-! ## Scanners -/

/-- A scanner with start conditions `σ`, rules `ρ` and tokens `τ`. -/
structure Scanner (α σ ρ τ : Type*) where
  rules : σ → List ρ
  pattern : ρ → RegularExpression α
  action : ρ → List α → Option τ
  next : ρ → σ → σ

namespace Scanner

variable {σ ρ τ : Type*} (lex : Scanner α σ ρ τ)

def scan : ℕ → σ → List α → List τ
  | 0, _, _ => []
  | _ + 1, _, [] => []
  | fuel + 1, state, a :: s =>
    match best lex.pattern (a :: s) (lex.rules state) with
    | some (r, n) =>
      (lex.action r ((a :: s).take n)).toList ++ scan fuel (lex.next r state) ((a :: s).drop n)
    | none => scan fuel state s

/-- The rules that win if they match as much. -/
def earlier [DecidableEq ρ] (state : σ) (r : ρ) : List ρ :=
  (lex.rules state).takeWhile (· ≠ r)

/-- Whether every rule stops where the token does. -/
def separates (state : σ) (first next : List α) : Bool :=
  (lex.rules state).all fun r => stops first next (lex.pattern r)

def foremost [DecidableEq ρ] (state : σ) (r : ρ) (first : List α) : Bool :=
  (lex.earlier state r).all fun r' => first.all (· ∉ firsts (lex.pattern r'))

/-- Whether a fixed text in front of one of `next` is a token of the rule. -/
def fixes [DecidableEq ρ] (state : σ) (r : ρ) (w next : List α) : Bool :=
  r ∈ lex.rules state && (lex.pattern r).rmatch w && lex.separates state (w.take 1) next &&
    (lex.earlier state r).all fun r' => !(lex.pattern r').rmatch w

/-- What the scanner yields, with enough fuel. -/
def Scans (state : σ) (s : List α) (tokens : List τ) : Prop :=
  ∀ fuel, s.length ≤ fuel → lex.scan fuel state s = tokens

variable {lex}

theorem Scans.nil (state : σ) : lex.Scans state [] [] := by
  intro fuel _
  cases fuel <;> rfl

variable {state : σ} {r : ρ} {w rest : List α} {tokens : List τ}

theorem Scans.step (hne : w ≠ [])
    (hbest : best lex.pattern (w ++ rest) (lex.rules state) = some (r, w.length))
    (hrest : lex.Scans (lex.next r state) rest tokens) :
    lex.Scans state (w ++ rest) ((lex.action r w).toList ++ tokens) := by
  intro fuel hfuel
  obtain ⟨a, s, hs⟩ := exists_cons_of_ne_nil (append_ne_nil_of_left_ne_nil hne rest)
  have hpos := length_pos_of_ne_nil hne
  rw [length_append] at hfuel
  obtain ⟨fuel, rfl⟩ := Nat.exists_eq_succ_of_ne_zero (by omega : fuel ≠ 0)
  rw [hs, scan, ← hs, hbest]
  dsimp only
  rw [take_left, drop_left, hrest fuel (by omega)]

variable [DecidableEq ρ] (first next : List α)

omit [DecidableEq α] in
theorem exists_earlier (hr : r ∈ lex.rules state) :
    ∃ after, lex.rules state = lex.earlier state r ++ r :: after := by
  unfold earlier
  generalize lex.rules state = rules at hr
  induction rules with
  | nil => cases hr
  | cons r' rules ih =>
    by_cases h : r' = r
    · exact ⟨rules, by simp [h]⟩
    · obtain ⟨after, hafter⟩ := ih ((mem_cons.mp hr).resolve_left (Ne.symm h))
      refine ⟨after, ?_⟩
      rw [takeWhile_cons_of_pos (by simpa using h), cons_append, ← hafter]

variable {a : α}

section

variable (hr : r ∈ lex.rules state) (hw : a :: w ∈ (lex.pattern r).matches') (ha : a ∈ first)
  (hnext : ∀ c ∈ rest.head?, c ∈ next) (hsep : lex.separates state first next)
include hr hw ha hnext hsep

/-- **One token**: its rule matches it, no earlier rule does, and every rule
stops between its last character and the one after it. -/
theorem Scans.token (hbefore : ∀ r' ∈ lex.earlier state r, a :: w ∉ (lex.pattern r').matches')
    (hrest : lex.Scans (lex.next r state) rest tokens) :
    lex.Scans state (a :: w ++ rest) ((lex.action r (a :: w)).toList ++ tokens) := by
  refine Scans.step (cons_ne_nil a w) ?_ hrest
  obtain ⟨after, hsplit⟩ := exists_earlier hr
  rw [hsplit]
  refine best_eq hw (cons_ne_nil a w) (fun r' hr' => ?_) hbefore
  exact bounded_of_stops ha hnext (all_eq_true.mp hsep r' (hsplit ▸ hr'))

/-- A token that no earlier rule begins like. -/
theorem Scans.foremost (hbefore : lex.foremost state r first)
    (hrest : lex.Scans (lex.next r state) rest tokens) :
    lex.Scans state (a :: w ++ rest) ((lex.action r (a :: w)).toList ++ tokens) := by
  refine Scans.token first next hr hw ha hnext hsep (fun r' hr' hmatch => ?_) hrest
  have := all_eq_true.mp (all_eq_true.mp hbefore r' hr') a ha
  exact absurd (mem_firsts hmatch) (by simpa using this)

end

omit first in
theorem Scans.fixed (h : lex.fixes state r (a :: w) next) (hnext : ∀ c ∈ rest.head?, c ∈ next)
    (hrest : lex.Scans (lex.next r state) rest tokens) :
    lex.Scans state (a :: w ++ rest) ((lex.action r (a :: w)).toList ++ tokens) := by
  simp only [fixes, Bool.and_eq_true, decide_eq_true_eq, all_eq_true, Bool.not_eq_true'] at h
  obtain ⟨⟨⟨hr, hw⟩, hsep⟩, hbefore⟩ := h
  refine Scans.token [a] next hr ((rmatch_iff_matches' _ _).mp hw) mem_cons_self hnext hsep
    (fun r' hr' hmatch => ?_) hrest
  rw [← rmatch_iff_matches', hbefore r' hr'] at hmatch
  cases hmatch

end Scanner

end Lib.Lexer
