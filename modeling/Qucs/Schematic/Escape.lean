/-
# Texts in schematic files

`misc::convert2ASCII` and `misc::convert2Unicode` of `misc.cpp`: line breaks and
backslashes are escaped one after the other, and taken back one after the other.

A text is the list of its code units, and `QString::toUShort` a parameter. The loop
of `convert2ASCII` over the other characters asks for a size below zero: it is never
entered.
-/
import Mathlib

namespace Qucs.Escape

open List

abbrev Text : Type := List UInt16

def backslash : UInt16 := 0x5c

def lineBreak : UInt16 := 0x0a

def letterN : UInt16 := 0x6e

def letterX : UInt16 := 0x78

/-- Every occurrence from the left is replaced, the first argument counts what is left
of the last one. -/
def replaceFrom (before after : Text) : ℕ → Text → Text
  | _, [] => []
  | skip + 1, _ :: s => replaceFrom before after skip s
  | 0, c :: s =>
    if before.isPrefixOf (c :: s) then after ++ replaceFrom before after (before.length - 1) s
    else c :: replaceFrom before after 0 s

/-- `QString::replace` of a text by a text. -/
def replace (before after s : Text) : Text := replaceFrom before after 0 s

/-- The first occurrence from `i` on. -/
def indexOf (str s : Text) (i : ℕ) : Option ℕ :=
  (range' i (s.length - i)).find? fun j => str.isPrefixOf (s.drop j)

/-- Backslashes are doubled, then line breaks become a backslash and an `n`. -/
def convert2ASCII (s : Text) : Text :=
  replace [lineBreak] [backslash, letterN] (replace [backslash] [backslash, backslash] s)

/-- The loop of `convert2Unicode`. The position grows in every round and the text does
not: there are no more rounds than characters. -/
def decode (toUShort : Text → Option UInt16) : ℕ → ℕ → Text → Text
  | 0, _, s => s
  | rounds + 1, i, s =>
    match indexOf [backslash, letterX] s i with
    | none => s
    | some i =>
      let n := (s.drop i).take 6
      match toUShort (n.drop 2) with
      | some ch => decode toUShort rounds (i + 1) (replace n [ch] s)
      | none => decode toUShort rounds (i + 1) s

/-- Numbers first, then line breaks, then backslashes. -/
def convert2Unicode (toUShort : Text → Option UInt16) (s : Text) : Text :=
  let s := decode toUShort s.length 0 s
  replace [backslash, backslash] [backslash] (replace [backslash, letterN] [lineBreak] s)

theorem replace_singleton (c : UInt16) (after s : Text) :
    replace [c] after s = s.flatMap fun d => if d = c then after else [d] := by
  induction s with
  | nil => rfl
  | cons d s ih =>
    rw [replace] at ih
    by_cases hd : d = c
    · simp [replace, replaceFrom, hd, ih]
    · simp [replace, replaceFrom, hd, Ne.symm hd, ih]

/-- What a character is written as. -/
def escape (c : UInt16) : Text :=
  if c = backslash then [backslash, backslash]
  else if c = lineBreak then [backslash, letterN]
  else [c]

theorem convert2ASCII_eq (s : Text) : convert2ASCII s = s.flatMap escape := by
  rw [convert2ASCII, replace_singleton, replace_singleton, flatMap_assoc]
  refine flatMap_congr fun c _ => ?_
  rw [escape]
  split_ifs with h h'
  · simp [backslash, lineBreak]
  · simp [h']
  · simp [h']

/-- **A text in a file is one line, and no other text has the same one**: what is lost
is lost by the reading. -/
theorem convert2ASCII_injective : (∀ s, lineBreak ∉ convert2ASCII s) ∧
    Function.Injective convert2ASCII := by
  constructor
  · intro s hs
    obtain ⟨c, -, hc⟩ := mem_flatMap.mp (convert2ASCII_eq s ▸ hs)
    rw [escape] at hc
    split_ifs at hc with h h' <;> simp_all [lineBreak, backslash, letterN]
  · intro s t h
    rw [convert2ASCII_eq, convert2ASCII_eq] at h
    have hne : ∀ c, escape c ≠ [] := fun c => by rw [escape]; split_ifs <;> simp
    induction s generalizing t with
    | nil => cases t <;> simp_all
    | cons c s ih =>
      cases t with
      | nil => simp_all
      | cons d t =>
        obtain ⟨rfl, hst⟩ : c = d ∧ s.flatMap escape = t.flatMap escape := by
          simp only [flatMap_cons, escape] at h
          split_ifs at h <;> simp_all [lineBreak, backslash, letterN]
        rw [ih hst]

/-! ## What is read back -/

/-- No backslash is directly followed by an `n`, nor by an `x` and by what is read as a
number. -/
def Recoverable (toUShort : Text → Option UInt16) (s : Text) : Prop :=
  ∀ c rest, backslash :: c :: rest <:+ s → c ≠ letterN ∧
    (c = letterX → toUShort ((convert2ASCII rest).take 4) = none)

variable {s t : Text} {toUShort : Text → Option UInt16}

theorem Recoverable.tail {c : UInt16} (h : Recoverable toUShort (c :: s)) :
    Recoverable toUShort s :=
  fun d rest hrest => h d rest (hrest.trans (suffix_cons c s))

/-- A backslash and an `x` in the file come from the same two characters of the text. -/
theorem suffix_escape (ht : [backslash, letterX] <+: t) (h : t <:+ s.flatMap escape) :
    ∃ rest, backslash :: letterX :: rest <:+ s ∧
      t = backslash :: letterX :: rest.flatMap escape := by
  induction s with
  | nil =>
    rw [flatMap_nil, suffix_nil] at h
    simp [h] at ht
  | cons c s ih =>
    have hlater : t <:+ s.flatMap escape → ∃ rest, backslash :: letterX :: rest <:+ c :: s ∧
        t = backslash :: letterX :: rest.flatMap escape := fun h =>
      (ih h).imp fun rest hrest => ⟨hrest.1.trans (suffix_cons c s), hrest.2⟩
    simp only [flatMap_cons, escape] at h
    split_ifs at h with hc hl
    · rcases suffix_cons_iff.mp h with rfl | h
      · simp [letterX, backslash] at ht
      · rcases suffix_cons_iff.mp h with rfl | h
        · cases s with
          | nil => simp at ht
          | cons d s =>
            simp only [flatMap_cons, escape] at ht ⊢
            split_ifs at ht ⊢
            · simp [letterX, backslash] at ht
            · simp [letterX, backslash] at ht
            · obtain rfl : letterX = d := by simpa using ht
              exact ⟨s, by rw [hc], rfl⟩
        · exact hlater h
    · rcases suffix_cons_iff.mp h with rfl | h
      · simp [letterX, letterN] at ht
      · rcases suffix_cons_iff.mp h with rfl | h
        · simp [letterN, backslash] at ht
        · exact hlater h
    · rcases suffix_cons_iff.mp h with rfl | h
      · simp [Ne.symm hc] at ht
      · exact hlater h

/-- The text from position `j` on begins with a number. -/
def NumberAt (toUShort : Text → Option UInt16) (s : Text) (j : ℕ) (ch : UInt16) : Prop :=
  [backslash, letterX] <+: s.drop j ∧ toUShort (((s.drop j).take 6).drop 2) = some ch

theorem numberAt_escape_iff :
    (∃ j ch, NumberAt toUShort (s.flatMap escape) j ch) ↔ ∃ rest,
      backslash :: letterX :: rest <:+ s ∧ toUShort ((convert2ASCII rest).take 4) ≠ none := by
  simp only [NumberAt, convert2ASCII_eq]
  constructor
  · rintro ⟨j, ch, hx, hch⟩
    obtain ⟨rest, hrest, heq⟩ := suffix_escape hx (drop_suffix j _)
    rw [heq] at hch
    exact ⟨rest, hrest, fun hnone => by simpa [hnone] using hch.symm⟩
  · rintro ⟨rest, ⟨front, rfl⟩, hsome⟩
    obtain ⟨ch, hch⟩ := Option.ne_none_iff_exists'.mp hsome
    have hdrop : ((front ++ backslash :: letterX :: rest).flatMap escape).drop
        ((front.flatMap escape).length + 1) = backslash :: letterX :: rest.flatMap escape := by
      rw [flatMap_append, ← drop_drop, drop_left]
      rfl
    exact ⟨(front.flatMap escape).length + 1, ch, hdrop ▸ prefix_append [_, _] _, hdrop ▸ hch⟩

theorem indexOf_eq_some {str : Text} {i j : ℕ} (h : indexOf str s i = some j) :
    i ≤ j ∧ j < s.length ∧ str <+: s.drop j ∧ ∀ k, i ≤ k → k < j → ¬str <+: s.drop k := by
  rw [indexOf, find?_range'_eq_some] at h
  obtain ⟨hfront, hmem, hfirst⟩ := h
  rw [mem_range'_1] at hmem
  refine ⟨hmem.1, by omega, isPrefixOf_iff_prefix.mp hfront, fun k hik hkj hk => ?_⟩
  have := isPrefixOf_iff_prefix.mpr hk
  simpa [this] using hfirst k hik hkj

theorem decode_eq_self (h : ¬∃ j ch, NumberAt toUShort s j ch) (rounds i : ℕ) :
    decode toUShort rounds i s = s := by
  induction rounds generalizing i with
  | zero => rfl
  | succ rounds ih =>
    rw [decode]
    split
    case h_1 => rfl
    case h_2 j hj =>
      have hnone : toUShort (((s.drop j).take 6).drop 2) = none := by
        by_contra hsome
        obtain ⟨ch, hch⟩ := Option.ne_none_iff_exists'.mp hsome
        exact h ⟨j, ch, (indexOf_eq_some hj).2.2.1, hch⟩
      simp only [hnone]
      exact ih _

/-! ## Counting -/

section Count

variable (p : UInt16 → Bool) {before : Text} (after : Text) (hbefore : before ≠ [])
include hbefore

/-- The characters with a property after `hits` replacements. -/
theorem countP_replaceFrom (skip : ℕ) (s : Text) : ∃ hits,
    (replaceFrom before after skip s).countP p + (s.take skip).countP p + hits * before.countP p =
      s.countP p + hits * after.countP p ∧ (skip = 0 → before <:+: s → 0 < hits) := by
  induction s generalizing skip with
  | nil => exact ⟨0, by cases skip <;> simp [replaceFrom], by simp [hbefore]⟩
  | cons c s ih =>
    cases skip with
    | succ skip =>
      obtain ⟨hits, hcount, -⟩ := ih skip
      refine ⟨hits, ?_, by simp⟩
      rw [replaceFrom, take_succ_cons, countP_cons, countP_cons]
      omega
    | zero =>
      rw [replaceFrom]
      split_ifs with hfront
      · obtain ⟨hits, hcount, -⟩ := ih (before.length - 1)
        refine ⟨hits + 1, ?_, fun _ _ => hits.succ_pos⟩
        have hbeforeCount : before.countP p =
            (s.take (before.length - 1)).countP p + if p c then 1 else 0 := by
          obtain ⟨rest, hrest⟩ := isPrefixOf_iff_prefix.mp hfront
          obtain ⟨b, before, rfl⟩ := exists_cons_of_ne_nil hbefore
          obtain ⟨rfl, rfl⟩ := cons_eq_cons.mp hrest
          simp [countP_cons]
        rw [countP_append, countP_cons]
        simp only [take_zero, countP_nil, add_mul, one_mul]
        omega
      · obtain ⟨hits, hcount, hpos⟩ := ih 0
        refine ⟨hits, ?_, fun _ hinfix => hpos rfl ?_⟩
        · simp only [take_zero, countP_nil, countP_cons] at hcount ⊢
          omega
        · exact (infix_cons_iff.mp hinfix).resolve_left
            fun h => hfront <| isPrefixOf_iff_prefix.mpr h

theorem countP_replace (s : Text) : ∃ hits,
    (replace before after s).countP p + hits * before.countP p =
      s.countP p + hits * after.countP p ∧
      (before <:+: s → 0 < hits) := by
  obtain ⟨hits, hcount, hpos⟩ := countP_replaceFrom p after hbefore 0 s
  exact ⟨hits, by simpa [replace] using hcount, hpos rfl⟩

end Count

/-- Neither a backslash nor what a line break is written as or read from. -/
def plain (c : UInt16) : Bool := c ≠ backslash ∧ c ≠ letterN ∧ c ≠ lineBreak

section Plain

variable (hnumber : ∀ t ch, toUShort t = some ch → ∃ c ∈ t, plain c)
include hnumber

/-- A number that is read takes away more than the character it stands for. -/
theorem countP_number {i : ℕ} {ch : UInt16} (h : NumberAt toUShort s i ch) :
    (replace ((s.drop i).take 6) [ch] s).countP plain < s.countP plain := by
  obtain ⟨⟨rest, hrest⟩, hch⟩ := h
  have htake : (s.drop i).take 6 = backslash :: letterX :: rest.take 4 := by
    rw [← hrest]
    rfl
  rw [htake] at hch
  have hcount : 2 ≤ ((s.drop i).take 6).countP plain := by
    have hpos := countP_pos_iff.mpr (hnumber _ _ hch)
    have hx : plain letterX := by decide
    rw [htake, countP_cons, countP_cons_of_pos hx]
    simp only [drop_succ_cons, drop_zero] at hpos
    omega
  have hinfix : (s.drop i).take 6 <:+: s :=
    take_prefix 6 _ |>.isInfix.trans (drop_suffix i s).isInfix
  have hne : (s.drop i).take 6 ≠ [] := htake ▸ cons_ne_nil _ _
  obtain ⟨hits, heq, hpos⟩ := countP_replace plain [ch] hne s
  have hone : [ch].countP plain ≤ 1 := countP_le_length
  have := hpos hinfix
  nlinarith

theorem countP_decode_le (rounds i : ℕ) (s : Text) :
    (decode toUShort rounds i s).countP plain ≤ s.countP plain := by
  induction rounds generalizing i s with
  | zero => exact le_rfl
  | succ rounds ih =>
    rw [decode]
    split
    case h_1 => exact le_rfl
    case h_2 j hj =>
      dsimp only
      split
      case h_1 ch hch =>
        exact (ih _ _).trans (countP_number hnumber ⟨(indexOf_eq_some hj).2.2.1, hch⟩).le
      case h_2 => exact ih _ _

theorem countP_decode_lt {rounds i j : ℕ} {ch : UInt16} (h : NumberAt toUShort s j ch) (hij : i ≤ j)
    (hrounds : s.length ≤ rounds + i) :
    (decode toUShort rounds i s).countP plain < s.countP plain := by
  have hj : j < s.length := by
    by_contra hlength
    have := h.1
    rw [drop_eq_nil_of_le (not_lt.mp hlength)] at this
    simp at this
  induction rounds generalizing i with
  | zero => omega
  | succ rounds ih =>
    rw [decode]
    split
    case h_1 hnone =>
      have := find?_range'_eq_none.mp hnone j hij (by omega)
      have hfront := isPrefixOf_iff_prefix.mpr h.1
      simp [hfront] at this
    case h_2 k hk =>
      obtain ⟨hik, -, hfront, hfirst⟩ := indexOf_eq_some hk
      dsimp only
      split
      case h_1 ch' hch =>
        exact (countP_decode_le hnumber _ _ _).trans_lt (countP_number hnumber ⟨hfront, hch⟩)
      case h_2 hnone =>
        have hkj : k ≠ j := by
          rintro rfl
          simp [h.2] at hnone
        have : k ≤ j := not_lt.mp fun hlt => hfirst j hij hlt h.1
        exact ih (by omega) (by omega)

end Plain

theorem countP_escape (s : Text) : (s.flatMap escape).countP plain = s.countP plain := by
  induction s with
  | nil => rfl
  | cons c s ih =>
    rw [flatMap_cons, countP_append, ih, countP_cons, add_comm, escape]
    congr 1
    split_ifs <;> simp_all [plain, backslash, letterN, lineBreak]

theorem countP_unescape {p : UInt16 → Bool} {before after : Text} (hbefore : before ≠ [])
    (hp : before.countP p = after.countP p) (s : Text) :
    (replace before after s).countP p = s.countP p := by
  obtain ⟨hits, heq, -⟩ := countP_replace p after hbefore s
  rw [hp] at heq
  exact Nat.add_right_cancel heq

/-- The second of two backslashes is taken together with an `n` after them. -/
theorem replace_letterN_cons (c : UInt16) (s : Text) :
    replace [backslash, letterN] [lineBreak] ((c :: s).flatMap escape) =
      if c = backslash then
        if s.head? = some letterN then backslash :: lineBreak ::
          (replace [backslash, letterN] [lineBreak] (s.flatMap escape)).tail
        else backslash :: backslash :: replace [backslash, letterN] [lineBreak] (s.flatMap escape)
      else c :: replace [backslash, letterN] [lineBreak] (s.flatMap escape) := by
  simp only [replace, flatMap_cons]
  split_ifs with hc hn
  · obtain ⟨s, rfl⟩ : ∃ s', s = letterN :: s' := by
      cases s <;> simp_all
    subst hc
    simp [escape, replaceFrom, letterN, backslash, lineBreak]
  · subst hc
    have hfront : ¬[backslash, letterN] <+: backslash :: s.flatMap escape := by
      cases s with
      | nil => simp
      | cons d s =>
        simp only [flatMap_cons, escape]
        split_ifs <;> simp_all [letterN, backslash, eq_comm]
    simp_all [escape, replaceFrom, letterN, backslash]
  · by_cases hl : c = lineBreak
    · simp [escape, replaceFrom, hl, lineBreak, backslash]
    · simp [escape, replaceFrom, hc, hl, Ne.symm hc]

/-- Every backslash before an `n` gives a line break more. -/
theorem count_lineBreak (s : Text) :
    s.count lineBreak ≤
      (replace [backslash, letterN] [lineBreak] (s.flatMap escape)).count lineBreak ∧
      ((∃ rest, backslash :: letterN :: rest <:+ s) → s.count lineBreak <
        (replace [backslash, letterN] [lineBreak] (s.flatMap escape)).count lineBreak) := by
  induction s with
  | nil => exact ⟨le_rfl, fun ⟨rest, hrest⟩ => by simp at hrest⟩
  | cons c s ih =>
    have hlater : (∃ rest, backslash :: letterN :: rest <:+ c :: s) →
        (c = backslash ∧ s.head? = some letterN) ∨ ∃ rest, backslash :: letterN :: rest <:+ s := by
      rintro ⟨rest, hrest⟩
      rcases suffix_cons_iff.mp hrest with heq | hrest
      · obtain ⟨rfl, rfl⟩ := cons_eq_cons.mp heq
        exact .inl ⟨rfl, rfl⟩
      · exact .inr ⟨rest, hrest⟩
    have hskip : ∀ (d : UInt16) (t : Text), d ≠ lineBreak →
        (d :: t).count lineBreak = t.count lineBreak := fun d t hd => count_cons_of_ne hd
    rw [replace_letterN_cons]
    split_ifs with hc hn
    · subst hc
      obtain ⟨s, rfl⟩ : ∃ s', s = letterN :: s' := by
        cases s <;> simp_all
      have hcount := ih.1
      rw [replace_letterN_cons, if_neg (by decide)] at hcount ⊢
      rw [hskip letterN _ (by decide), hskip letterN _ (by decide)] at hcount
      rw [hskip backslash _ (by decide), hskip letterN _ (by decide), hskip backslash _ (by decide),
        count_cons_self, tail_cons]
      exact ⟨by omega, fun _ => by omega⟩
    · subst hc
      rw [hskip backslash _ (by decide), hskip backslash _ (by decide),
        hskip backslash _ (by decide)]
      exact ⟨ih.1, fun h => ih.2 ((hlater h).resolve_left fun h => hn h.2)⟩
    · simp only [count_cons]
      refine ⟨Nat.add_le_add_right ih.1 _, fun h => Nat.add_lt_add_right (ih.2 ?_) _⟩
      exact (hlater h).resolve_left fun h => hc h.1

theorem replace_letterN (h : Recoverable toUShort s) :
    replace [backslash, letterN] [lineBreak] (s.flatMap escape) =
      s.flatMap fun c => if c = backslash then [backslash, backslash] else [c] := by
  induction s with
  | nil => rfl
  | cons c s ih =>
    rw [replace_letterN_cons, ih h.tail, flatMap_cons]
    split_ifs with hc hn
    · cases s with
      | nil => simp at hn
      | cons d s => exact absurd (by simpa using hn) (h d s (by rw [hc])).1
    · rfl
    · rfl

theorem replace_backslash (s : Text) : replace [backslash, backslash] [backslash]
    (s.flatMap fun c => if c = backslash then [backslash, backslash] else [c]) = s := by
  induction s with
  | nil => rfl
  | cons c s ih =>
    rw [replace] at ih ⊢
    rw [flatMap_cons]
    split_ifs with hc
    · simp [replaceFrom, ih, hc]
    · simp [replaceFrom, ih, Ne.symm hc]

/-- **Texts round trip iff** no backslash is followed by an `n`, or by an `x` and a number.
A number has a digit in it. -/
theorem convert2Unicode_convert2ASCII_iff
    (hnumber : ∀ t ch, toUShort t = some ch → ∃ c ∈ t, plain c) (s : Text) :
    convert2Unicode toUShort (convert2ASCII s) = s ↔ Recoverable toUShort s := by
  rw [convert2Unicode, convert2ASCII_eq]
  constructor
  · intro hround
    have hnone : ¬∃ j ch, NumberAt toUShort (s.flatMap escape) j ch := by
      rintro ⟨j, ch, hj⟩
      have hlt := countP_decode_lt hnumber hj (Nat.zero_le j) le_rfl
      have hcount := congrArg (countP plain) hround
      rw [countP_unescape (cons_ne_nil _ _) (by decide),
        countP_unescape (cons_ne_nil _ _) (by decide)] at hcount
      rw [hcount, countP_escape] at hlt
      exact lt_irrefl _ hlt
    rw [decode_eq_self hnone] at hround
    intro c rest hrest
    refine ⟨?_, ?_⟩
    · rintro rfl
      have hcount := congrArg (count lineBreak) hround
      simp only [count] at hcount
      rw [countP_unescape (cons_ne_nil _ _) (by decide)] at hcount
      exact ((count_lineBreak s).2 ⟨rest, hrest⟩).ne' hcount
    · rintro rfl
      by_contra hsome
      exact hnone (numberAt_escape_iff.mpr ⟨rest, hrest, hsome⟩)
  · intro h
    have hnone : ¬∃ j ch, NumberAt toUShort (s.flatMap escape) j ch := by
      rw [numberAt_escape_iff]
      rintro ⟨rest, hrest, hsome⟩
      exact hsome ((h letterX rest hrest).2 rfl)
    rw [decode_eq_self hnone]
    exact (congrArg _ (replace_letterN h)).trans (replace_backslash s)

/-- The value of a hexadecimal digit. -/
def hexDigit (c : UInt16) : Option ℕ :=
  if 0x30 ≤ c ∧ c ≤ 0x39 then some (c.toNat - 0x30)
  else if 0x41 ≤ c ∧ c ≤ 0x46 then some (c.toNat - 0x37)
  else if 0x61 ≤ c ∧ c ≤ 0x66 then some (c.toNat - 0x57)
  else none

/-- `toUShort` to base 16, for texts without blanks and signs. -/
def hexadecimal (t : Text) : Option UInt16 :=
  if t = [] then none
  else (t.mapM hexDigit).map fun digits => .ofNat (digits.foldl (fun n d => 16 * n + d) 0)

theorem hexadecimal_plain (t : Text) (ch : UInt16) (h : hexadecimal t = some ch) :
    ∃ c ∈ t, plain c := by
  cases t with
  | nil => exact absurd h (by simp [hexadecimal])
  | cons c t =>
    refine ⟨c, mem_cons_self, ?_⟩
    by_contra hplain
    have hnone : hexDigit c = none := by
      obtain rfl | rfl | rfl : c = backslash ∨ c = letterN ∨ c = lineBreak := by
        simpa [plain, or_iff_not_imp_left] using hplain
      all_goals decide
    simp [hexadecimal, hnone] at h

/-- `\xZ` is no number, and the other backslash stands before a line break. -/
theorem convert2Unicode_convert2ASCII_noNumber :
    convert2Unicode hexadecimal (convert2ASCII [backslash, letterX, 0x5a, backslash, lineBreak]) =
      [backslash, letterX, 0x5a, backslash, lineBreak] := by
  refine (convert2Unicode_convert2ASCII_iff hexadecimal_plain _).mpr fun c rest hrest => ?_
  simp only [suffix_cons_iff, suffix_nil, cons.injEq] at hrest
  obtain ⟨-, rfl, rfl⟩ | ⟨h, -⟩ | ⟨h, -⟩ | ⟨-, rfl, rfl⟩ | ⟨h, -⟩ | h := hrest
  · exact ⟨by decide, fun _ => by decide⟩
  · exact absurd h (by decide)
  · exact absurd h (by decide)
  · exact ⟨by decide, fun h => absurd h (by decide)⟩
  · exact absurd h (by decide)
  · exact absurd h (cons_ne_nil _ _)

/-- A backslash and an `n` come back with a line break, whatever `toUShort` does. -/
theorem convert2Unicode_backslash_n :
    (convert2Unicode · (convert2ASCII [backslash, letterN])) = fun _ => [backslash, lineBreak] :=
  rfl

end Qucs.Escape
