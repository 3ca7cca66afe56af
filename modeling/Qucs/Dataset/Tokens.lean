/-
# The tokens of a dataset that was printed

Every number, name and keyword of the text is one token: it ends where no rule of
the scanner can go on, and no earlier rule matches it. A number is read as the
exact decimal that stands there (`strtod_print`, `complexValue_print`). The one
token that depends on more than its kind is a name: `dep` and `indep` are keywords
there too (`nameToken`).

The `scans_` lemmas put one part of a dataset in front of a text whose tokens are
known; `lex_print` has the tokens of the whole.
-/
import Qucs.Dataset.Format

namespace Qucs.Dataset

open Lib.Lexer RegularExpression Scanner List
open Nat (digitChar toDigits ofDigitChars)

/-! ## The texts of numbers -/

variable {c : Char}

theorem mem_digit (h : c.isDigit) : c ∈ digit := by
  have hc : 48 ≤ c.toNat ∧ c.toNat ≤ 57 := by
    obtain ⟨h₁, h₂⟩ := Bool.and_eq_true_iff.mp h
    exact ⟨of_decide_eq_true h₁, of_decide_eq_true h₂⟩
  refine mem_map.mpr ⟨c.toNat - 48, ?_, ?_⟩
  · rw [mem_range]
    show c.toNat - 48 < 10
    omega
  · show Char.ofNat (48 + (c.toNat - 48)) = c
    rw [Nat.add_sub_cancel' hc.1, Char.ofNat_toNat]

theorem isDigit_digitChar : ∀ d : Fin 10, (digitChar d).isDigit := by decide

theorem isDigit_digitChars {ds : List (Fin 10)} (h : c ∈ digitChars ds) : c.isDigit := by
  obtain ⟨d, -, rfl⟩ := mem_map.mp h
  exact isDigit_digitChar d

theorem isDigit_toDigits {n : ℕ} (h : c ∈ toDigits 10 n) : c.isDigit :=
  Nat.isDigit_of_mem_toDigits (by decide) (by decide) h

theorem exists_toDigits (n : ℕ) : ∃ c ds, toDigits 10 n = c :: ds ∧ c.isDigit := by
  obtain ⟨c, ds, hcons⟩ := exists_cons_of_ne_nil (Nat.toDigits_ne_nil)
  exact ⟨c, ds, hcons, isDigit_toDigits (hcons ▸ mem_cons_self)⟩

theorem isDigit_exponentDigits {e : ℤ} (h : c ∈ exponentDigits e) : c.isDigit := by
  rw [exponentDigits] at h
  split at h
  · rcases mem_cons.mp h with rfl | h
    · decide
    · exact isDigit_toDigits h
  · exact isDigit_toDigits h

theorem exponentDigits_ne_nil (e : ℤ) : exponentDigits e ≠ [] := by
  rw [exponentDigits]
  split
  · exact cons_ne_nil _ _
  · exact Nat.toDigits_ne_nil

theorem ofDigitChars_exponentDigits (e : ℤ) :
    ofDigitChars 10 (exponentDigits e) 0 = e.natAbs := by
  have hzero (ds : List Char) : ofDigitChars 10 ('0' :: ds) 0 = ofDigitChars 10 ds 0 := rfl
  rw [exponentDigits]
  split
  · rw [hzero, Nat.ofDigitChars_ten_toDigits]
  · rw [Nat.ofDigitChars_ten_toDigits]

/-- Digits make a word of `{DIGIT}*`, and of `{DIGIT}+`. -/
theorem star_digit {ds : List Char} (h : ∀ c ∈ ds, c.isDigit) :
    ds ∈ (star (oneOf digit)).matches' := mem_star_oneOf.mpr fun c hc => mem_digit (h c hc)

theorem many_digit {ds : List Char} (hne : ds ≠ []) (h : ∀ c ∈ ds, c.isDigit) :
    ds ∈ (many (oneOf digit)).matches' := mem_many_oneOf.mpr ⟨hne, fun c hc => mem_digit (h c hc)⟩

variable (negative : Bool)

theorem sign_mem : signChar negative ∈ ['+', '-'] := by
  cases negative <;> decide

theorem maybe_sign : [signChar negative] ∈ (maybe (oneOf ['+', '-'])).matches' :=
  mem_maybe.mpr (.inl (mem_oneOf.mpr ⟨_, sign_mem negative, rfl⟩))

variable (x : Decimal)

theorem printMagnitude_mem : printMagnitude x ∈ (star (oneOf digit) *
    (char '.' * (many (oneOf digit) * maybe exponent))).matches' := by
  have hexponent : 'e' :: signChar (x.exponent < 0) :: exponentDigits x.exponent ∈
      (maybe exponent).matches' := by
    have he : ['e'] ∈ (oneOf ['E', 'e']).matches' := mem_oneOf.mpr ⟨'e', by simp, rfl⟩
    refine mem_maybe.mpr (.inl (mem_mul.mpr ⟨['e'], he, _, ?_, rfl⟩))
    exact mem_mul.mpr ⟨_, maybe_sign _, _,
      many_digit (exponentDigits_ne_nil _) fun c => isDigit_exponentDigits, rfl⟩
  have hfraction : digitChars x.fraction.toList ∈ (many (oneOf digit)).matches' := by
    refine many_digit ?_ fun c => isDigit_digitChars
    rw [← length_pos_iff]
    simp [digitChars]
  refine mem_mul.mpr ⟨[digitChar x.lead], star_digit ?_, _,
    mem_mul.mpr ⟨['.'], rfl, _, mem_mul.mpr ⟨_, hfraction, _, hexponent, rfl⟩, rfl⟩, rfl⟩
  simp

theorem printSigned_mem : printSigned x ∈ creal.matches' :=
  mem_add.mpr (.inr (mem_add.mpr (.inl
    (mem_mul.mpr ⟨_, maybe_sign x.negative, _, printMagnitude_mem x, rfl⟩))))

theorem imaginary_mem :
    signChar negative :: 'j' :: printMagnitude x ∈ cimag.matches' := by
  refine mem_add.mpr (.inr (mem_add.mpr (.inl ?_)))
  exact mem_mul.mpr ⟨_, maybe_sign negative, _,
    mem_mul.mpr ⟨['j'], mem_oneOf.mpr ⟨'j', by decide, rfl⟩, _, printMagnitude_mem x, rfl⟩, rfl⟩

/-! ## The numbers that are read -/

theorem readSign_signChar (s : List Char) :
    readSign (signChar negative :: s) = (if negative then -1 else 1, s) := by
  cases negative <;> rfl

theorem readDigits_append (ds : List Char) {s : List Char} (hds : ∀ c ∈ ds, c.isDigit)
    (hs : ∀ c ∈ s.head?, c.isDigit = false) : readDigits (ds ++ s) = (ds, s) := by
  have htake : s.takeWhile Char.isDigit = [] := by
    cases s with
    | nil => rfl
    | cons c s => simp [hs c rfl]
  have hdrop : s.dropWhile Char.isDigit = s := by
    cases s with
    | nil => rfl
    | cons c s => simp [hs c rfl]
  rw [readDigits, takeWhile_append_of_pos hds, dropWhile_append_of_pos hds, htake, hdrop,
    append_nil]

theorem ofDigitChars_digitChars (ds : List (Fin 10)) :
    ofDigitChars 10 (digitChars ds) 0 = ds.foldl (fun (n : ℕ) (d : Fin 10) => 10 * n + d) 0 := by
  have hdigit : ∀ d : Fin 10, (digitChar d).toNat - '0'.toNat = d := by decide
  rw [ofDigitChars, digitChars, foldl_map]
  simp only [hdigit]

theorem readExponent_print (e : ℤ) :
    readExponent ('e' :: signChar (e < 0) :: exponentDigits e) = e := by
  have hdigits : readDigits (exponentDigits e) = (exponentDigits e, []) := by
    simpa using readDigits_append _ (s := []) (fun c => isDigit_exponentDigits) (by simp)
  rw [readExponent, if_pos (.inl rfl), readSign_signChar]
  dsimp only
  rw [hdigits, ofDigitChars_exponentDigits]
  by_cases h : e < 0
  · simp only [h, decide_true, if_true]
    omega
  · simp only [h, decide_false, Bool.false_eq_true, if_false]
    omega

/-- **A decimal is read as its value.** -/
theorem strtod_print :
    strtod (signChar negative :: printMagnitude x) =
      (if negative then -1 else 1) * x.mantissa * 10 ^ (x.exponent - 20) := by
  have hwhole : readDigits (printMagnitude x) = ([digitChar x.lead], '.' ::
      (digitChars x.fraction.toList ++ 'e' :: signChar (x.exponent < 0) ::
        exponentDigits x.exponent)) :=
    readDigits_append [digitChar x.lead] (by simp) (by simp)
  have hfraction : readFraction ('.' :: (digitChars x.fraction.toList ++ 'e' ::
      signChar (x.exponent < 0) :: exponentDigits x.exponent)) = (digitChars x.fraction.toList,
      'e' :: signChar (x.exponent < 0) :: exponentDigits x.exponent) := by
    exact readDigits_append _ (fun c => isDigit_digitChars) (by simp)
  have hmantissa : ofDigitChars 10 ([digitChar x.lead] ++ digitChars x.fraction.toList) 0 =
      x.mantissa := ofDigitChars_digitChars x.digits
  have hlength : (digitChars x.fraction.toList).length = 20 := by simp [digitChars]
  rw [strtod, readSign_signChar]
  dsimp only
  rw [hwhole]
  rw [hfraction]
  rw [hmantissa, readExponent_print, hlength]
  cases negative <;> simp

theorem strtod_printSigned : strtod (printSigned x) = x.value := strtod_print x.negative x

theorem sign_value {x : Decimal} (h : x.value ≠ 0) :
    (if x.value ≥ 0 then '+' else '-') = signChar x.negative := by
  have hpos : (0 : ℚ) < x.mantissa * 10 ^ (x.exponent - 20) := by
    have hnonneg : (0 : ℚ) ≤ x.mantissa * 10 ^ (x.exponent - 20) :=
      mul_nonneg (Nat.cast_nonneg _) (zpow_nonneg (by norm_num) _)
    refine lt_of_le_of_ne hnonneg fun hzero => h ?_
    rw [Decimal.value, mul_assoc, ← hzero, mul_zero]
  rw [Decimal.value, mul_assoc]
  cases x.negative with
  | true => simp [signChar, hpos]
  | false => simp [signChar, hpos.le]

theorem isUnit_printSigned {x : Decimal} (h : c ∈ printSigned x) : isUnit c = false := by
  have hdigit {c : Char} (h : c.isDigit) : isUnit c = false := by
    have hnone : digit.all (fun c => !isUnit c) := by decide
    simpa using all_eq_true.mp hnone c (mem_digit h)
  have hsign (negative : Bool) : isUnit (signChar negative) = false := by
    cases negative <;> rfl
  simp only [printSigned, printMagnitude, mem_cons, mem_append, cons_append] at h
  rcases h with rfl | rfl | rfl | h | rfl | rfl | h
  · exact hsign _
  · exact hdigit (isDigit_digitChar _)
  · rfl
  · exact hdigit (isDigit_digitChars h)
  · rfl
  · exact hsign _
  · exact hdigit (isDigit_exponentDigits h)

theorem complexValue_print (x y : Decimal) (negative : Bool) :
    complexValue (printSigned x ++ signChar negative :: 'j' :: printMagnitude y) =
      (x.value, ((if negative then -1 else 1) * y.mantissa * 10 ^ (y.exponent - 20) : ℚ)) := by
  have hindex : (printSigned x ++ signChar negative :: 'j' :: printMagnitude y).findIdx isUnit =
      (printSigned x).length + 1 := by
    have hsign : isUnit (signChar negative) = false := by cases negative <;> rfl
    have hunit : isUnit 'j' := rfl
    have hnone : (printSigned x).findIdx isUnit = (printSigned x).length :=
      findIdx_eq_length.mpr fun c hc => isUnit_printSigned hc
    rw [findIdx_append, hnone, if_neg (lt_irrefl _)]
    simp [findIdx_cons, hsign, hunit, add_comm]
  have hdrop : (printSigned x ++ signChar negative :: 'j' :: printMagnitude y).drop
      ((printSigned x).length + 1 + 1) = printMagnitude y := by
    rw [add_assoc, ← drop_drop, drop_left]
    rfl
  rw [complexValue, hindex, hdrop, Nat.add_sub_cancel, take_left, drop_left]
  exact Prod.ext (strtod_printSigned x) (strtod_print negative y)

/-! ## The tokens of a dataset -/

/-- A name is a keyword or an identifier. -/
def nameToken (name : Name) : Token :=
  if name = depText then .depBegin else if name = indepText then .indepBegin else .identifier name

def valueToken (c : Decimal × Decimal) : Token :=
  if c.2.value = 0 then .real c.1.value else .complex c.1.value c.2.value

def dataTokens (data : List (Decimal × Decimal)) : List Token :=
  data.flatMap fun c => [valueToken c, .eol]

def dependencyTokens (name : Name) (data : List (Decimal × Decimal)) : List Token :=
  .lt :: .indepBegin :: nameToken name :: .integer data.length :: .gt :: .eol :: dataTokens data ++
    [.lt, .indepEnd, .gt, .eol]

def variableTokens (name : Name) (dependencies : List Name) (data : List (Decimal × Decimal)) :
    List Token :=
  .lt :: .depBegin :: nameToken name :: dependencies.map nameToken ++ .gt :: .eol ::
    dataTokens data ++ [.lt, .depEnd, .gt, .eol]

/-- The tokens with fixed texts; the two spaces differ in what comes after them. -/
inductive Lexeme where
  | header
  | lt
  | gt
  | eol
  | indent
  | space
  | dep
  | indep
  | depEnd
  | indepEnd

namespace Lexeme

def state : Lexeme → Condition
  | .header | .lt | .eol | .indent => .initial
  | .gt | .space | .dep | .indep | .depEnd | .indepEnd => .description

def rule : Lexeme → Rule
  | .header => .version
  | .lt => .lt
  | .gt => .gt
  | .eol => .eol
  | .indent => .space
  | .space => .space
  | .dep => .depBegin
  | .indep => .indepBegin
  | .depEnd => .depEnd
  | .indepEnd => .indepEnd

@[simp]
def text : Lexeme → List Char
  | .header => Dataset.header
  | .lt => ['<']
  | .gt => ['>']
  | .eol => ['\n']
  | .indent => [' ']
  | .space => [' ']
  | .dep => depText
  | .indep => indepText
  | .depEnd => '/' :: depText
  | .indepEnd => '/' :: indepText

/-- The characters that come after it. -/
@[simp]
def next : Lexeme → List Char
  | .header => ['\n']
  | .lt => ['d', 'i', '/']
  | .gt => ['\n']
  | .eol => [' ', '<']
  | .indent => [' ', '+', '-']
  | .space => alpha ++ digit
  | .dep | .indep => [' ', '>']
  | .depEnd | .indepEnd => ['>']

theorem fixes (l : Lexeme) : scanner.fixes l.state l.rule l.text l.next := by
  cases l <;> decide +kernel

end Lexeme

/-- The rules stop at the end of names, sizes and values, and none before those of
sizes and real values begins like them. -/
theorem scanner_separates :
    scanner.separates .description alpha [' ', '>'] ∧ scanner.separates .description digit ['>'] ∧
      scanner.separates .initial ['+', '-'] ['\n'] ∧
      scanner.foremost .description .integer digit ∧
      scanner.foremost .initial .real ['+', '-'] := by
  decide +kernel

theorem firsts_patterns :
    (identifier.matchEpsilon = false ∧ (firsts identifier).all (· ∈ alpha) ∧ '/' ∉ alpha) ∧
      ['+', '-'].all (fun c => c ∉ firsts versionLine && c ∉ firsts identifier &&
        digit.all (· ∉ firsts (cimag.deriv c))) ∧ 'j' ∉ letters creal := by
  decide +kernel

section Scan

variable {rest : List Char} {tokens : List Token}

theorem scans_lexeme (l : Lexeme) (hnext : ∀ c ∈ rest.head?, c ∈ l.next)
    (hrest : scanner.Scans (next l.rule l.state) rest tokens) :
    scanner.Scans l.state (l.text ++ rest) ((action l.rule l.text).toList ++ tokens) := by
  have hfixes := l.fixes
  obtain ⟨a, w, htext⟩ : ∃ a w, l.text = a :: w := by cases l <;> exact ⟨_, _, rfl⟩
  rw [htext] at hfixes ⊢
  exact Scans.fixed l.next hfixes hnext hrest

variable {name : Name}

theorem exists_alpha (h : name ∈ identifier.matches') : ∃ a ∈ alpha, ∃ w, name = a :: w := by
  cases name with
  | nil => exact absurd (matchEpsilon_of_nil h) (by simp [firsts_patterns.1.1])
  | cons a w =>
    have ha := all_eq_true.mp firsts_patterns.1.2.1 a (mem_firsts h)
    exact ⟨a, of_decide_eq_true ha, w, rfl⟩

theorem scans_name (h : name ∈ identifier.matches') (hnext : ∀ c ∈ rest.head?, c ∈ [' ', '>'])
    (hrest : scanner.Scans .description rest tokens) :
    scanner.Scans .description (name ++ rest) (nameToken name :: tokens) := by
  rw [nameToken]
  split_ifs with hdep hindep
  · rw [hdep]
    exact scans_lexeme .dep hnext hrest
  · rw [hindep]
    exact scans_lexeme .indep hnext hrest
  · obtain ⟨a, ha, w, rfl⟩ := exists_alpha h
    refine Scans.token (r := Rule.identifier) alpha [' ', '>'] (by decide) h ha hnext
      scanner_separates.1 (fun r' hr' hmatch => ?_) hrest
    have hslash : a ≠ '/' := by
      rintro rfl
      exact firsts_patterns.1.2.2 ha
    have hr' : r' ∈ [Rule.depBegin, .indepBegin, .depEnd, .indepEnd] := hr'
    simp only [mem_cons, not_mem_nil, or_false] at hr'
    rcases hr' with rfl | rfl | rfl | rfl
    · exact hdep (mem_word.mp hmatch)
    · exact hindep (mem_word.mp hmatch)
    · exact hslash (cons.inj (mem_word.mp hmatch)).1
    · exact hslash (cons.inj (mem_word.mp hmatch)).1

theorem readSign_digit {c : Char} (h : c.isDigit) (s : List Char) :
    readSign (c :: s) = (1, c :: s) := by
  have hnone : digit.all (fun c => c ≠ '-' ∧ c ≠ '+') := by decide
  have hc : c ≠ '-' ∧ c ≠ '+' := by simpa using all_eq_true.mp hnone c (mem_digit h)
  rw [readSign, if_neg hc.1, if_neg hc.2]

theorem strtol_toDigits (n : ℕ) : strtol (toDigits 10 n) = n := by
  obtain ⟨c, ds, hcons, hc⟩ := exists_toDigits n
  have hsign : readSign (toDigits 10 n) = (1, toDigits 10 n) := by
    rw [hcons]
    exact readSign_digit hc ds
  have hdigits : readDigits (toDigits 10 n) = (toDigits 10 n, []) := by
    simpa using readDigits_append _ (s := []) (fun c => isDigit_toDigits) (by simp)
  rw [strtol, hsign]
  dsimp only
  rw [hdigits, Nat.ofDigitChars_ten_toDigits, one_mul]

theorem scans_size (n : ℕ) (hnext : ∀ c ∈ rest.head?, c ∈ ['>'])
    (hrest : scanner.Scans .description rest tokens) :
    scanner.Scans .description (toDigits 10 n ++ rest) (.integer n :: tokens) := by
  have hmem : toDigits 10 n ∈ rint.matches' := mem_mul.mpr
    ⟨[], mem_maybe.mpr (.inr rfl), _, many_digit Nat.toDigits_ne_nil fun c => isDigit_toDigits, rfl⟩
  rw [← strtol_toDigits n]
  obtain ⟨c, ds, hcons, hc⟩ := exists_toDigits n
  rw [hcons] at hmem ⊢
  exact Scans.foremost digit ['>'] (by decide) hmem (mem_digit hc) hnext
    scanner_separates.2.1 scanner_separates.2.2.2.1 hrest

/-- The rules before that of complex numbers match none that is printed: there is a
unit in it, and it comes after a digit. -/
theorem complex_notMem (x y : Decimal) {r' : Rule} (h : r' ∈ scanner.earlier .initial .complex) :
    printSigned x ++ signChar y.negative :: 'j' :: printMagnitude y ∉
      (scanner.pattern r').matches' := by
  intro hmatch
  obtain ⟨-, hsign, hunit⟩ := firsts_patterns
  have hfirsts := all_eq_true.mp hsign _ (sign_mem x.negative)
  simp only [Bool.and_eq_true, decide_eq_true_eq, all_eq_true] at hfirsts
  obtain ⟨⟨hversion, hidentifier⟩, himag⟩ := hfirsts
  have hr' : r' ∈ [Rule.version, .identifier, .real, .imag] := h
  simp only [mem_cons, not_mem_nil, or_false] at hr'
  rcases hr' with rfl | rfl | rfl | rfl
  case inl => exact hversion (mem_firsts hmatch)
  case inr.inl => exact hidentifier (mem_firsts hmatch)
  case inr.inr.inl => exact hunit (mem_letters hmatch 'j' (by simp))
  case inr.inr.inr =>
    exact himag _ (mem_digit (isDigit_digitChar x.lead)) (mem_firsts_deriv hmatch)

theorem scans_value (c : Decimal × Decimal) (hnext : ∀ c ∈ rest.head?, c ∈ ['\n'])
    (hrest : scanner.Scans .initial rest tokens) :
    scanner.Scans .initial (printValue c ++ rest) (valueToken c :: tokens) := by
  obtain ⟨x, y⟩ := c
  obtain ⟨-, -, hsep, -, hforemost⟩ := scanner_separates
  rw [printValue, valueToken]
  split
  case isTrue =>
    rw [← strtod_printSigned x]
    exact Scans.foremost ['+', '-'] ['\n'] (by decide) (printSigned_mem x)
      (sign_mem _) hnext hsep hforemost hrest
  case isFalse hy =>
    have hmem := mem_mul.mpr ⟨_, printSigned_mem x, _, imaginary_mem y.negative y, rfl⟩
    have htoken : scanner.action .complex (printSigned x ++ signChar y.negative :: 'j' ::
        printMagnitude y) = some (.complex x.value y.value) := by
      show some (Token.complex _ _) = _
      rw [complexValue_print]
      rfl
    have hscan : scanner.Scans .initial _ ((scanner.action .complex (printSigned x ++
        signChar y.negative :: 'j' :: printMagnitude y)).toList ++ tokens) :=
      Scans.token ['+', '-'] ['\n'] (by decide) hmem (sign_mem _) hnext hsep
        (fun r' => complex_notMem x y) hrest
    rw [htoken] at hscan
    rwa [sign_value hy]

omit tokens in
theorem head_value (c : Decimal × Decimal) :
    ∀ b ∈ (printValue c ++ rest).head?, b ∈ [' ', '+', '-'] := by
  have hhead : (printValue c ++ rest).head? = some (signChar c.1.negative) := by
    rw [printValue]
    split <;> rfl
  rw [hhead]
  rintro b ⟨⟩
  exact mem_cons_of_mem _ (sign_mem _)

theorem head_name (h : name ∈ identifier.matches') :
    ∀ c ∈ (name ++ rest).head?, c ∈ alpha ++ digit := by
  obtain ⟨a, ha, w, rfl⟩ := exists_alpha h
  rintro c ⟨⟩
  exact mem_append_left _ ha

theorem head_size (n : ℕ) : ∀ c ∈ (toDigits 10 n ++ rest).head?, c ∈ alpha ++ digit := by
  obtain ⟨d, ds, hcons, hd⟩ := exists_toDigits n
  rw [hcons]
  rintro c ⟨⟩
  exact mem_append_right _ (mem_digit hd)

/-! The parts of a dataset, each in front of the text and the tokens that are
left. -/

theorem scans_data (data : List (Decimal × Decimal)) (hnext : ∀ c ∈ rest.head?, c ∈ [' ', '<'])
    (hrest : scanner.Scans .initial rest tokens) :
    scanner.Scans .initial (printData data ++ rest) (dataTokens data ++ tokens) := by
  induction data with
  | nil => exact hrest
  | cons c data ih =>
    have hline : printData (c :: data) ++ rest =
        ' ' :: ' ' :: (printValue c ++ '\n' :: (printData data ++ rest)) := by
      simp [printData]
    have hdata : ∀ b ∈ (printData data ++ rest).head?, b ∈ [' ', '<'] := by
      cases data with
      | nil => exact hnext
      | cons c' data => simp [printData]
    rw [hline]
    exact scans_lexeme .indent (by simp) (scans_lexeme .indent (head_value c)
      (scans_value c (by simp) (scans_lexeme .eol hdata ih)))

/-- The values of a vector, from the end of its description to the end of it. -/
theorem scans_body (data : List (Decimal × Decimal)) {close : Lexeme}
    (hclose : close = .depEnd ∨ close = .indepEnd) (hnext : ∀ c ∈ rest.head?, c ∈ [' ', '<'])
    (hrest : scanner.Scans .initial rest tokens) :
    scanner.Scans .description
      ('>' :: '\n' :: (printData data ++ '<' :: (close.text ++ '>' :: '\n' :: rest)))
      (.gt :: .eol :: (dataTokens data ++ .lt :: ((action close.rule close.text).toList ++
        .gt :: .eol :: tokens))) := by
  have hline := scans_lexeme .gt (by simp) (scans_lexeme .eol hnext hrest)
  have hend : scanner.Scans .initial ('<' :: (close.text ++ '>' :: '\n' :: rest))
      (.lt :: ((action close.rule close.text).toList ++ .gt :: .eol :: tokens)) := by
    rcases hclose with rfl | rfl
    · exact scans_lexeme .lt (by simp) (scans_lexeme .depEnd (by simp) hline)
    · exact scans_lexeme .lt (by simp) (scans_lexeme .indepEnd (by simp) hline)
  exact scans_lexeme .gt (by simp) (scans_lexeme .eol (by cases data <;> simp [printData])
    (scans_data data (by simp) hend))

theorem scans_dependency (h : name ∈ identifier.matches') (data : List (Decimal × Decimal))
    (hnext : ∀ c ∈ rest.head?, c ∈ [' ', '<']) (hrest : scanner.Scans .initial rest tokens) :
    scanner.Scans .initial (printDependency name data ++ rest)
      (dependencyTokens name data ++ tokens) := by
  have hbody := scans_body data (.inr rfl) hnext hrest
  have hsize := scans_lexeme .space (head_size _) (scans_size data.length (by simp) hbody)
  simp only [printDependency, dependencyTokens, append_assoc, cons_append, nil_append]
  exact scans_lexeme .lt (by simp [indepText]) (scans_lexeme .indep (by simp)
    (scans_lexeme .space (head_name h) (scans_name h (by simp) hsize)))

theorem scans_names {names : List Name} (h : ∀ name ∈ names, name ∈ identifier.matches')
    (hnext : ∀ c ∈ rest.head?, c ∈ ['>']) (hrest : scanner.Scans .description rest tokens) :
    scanner.Scans .description (names.flatMap (' ' :: ·) ++ rest)
      (names.map nameToken ++ tokens) := by
  induction names with
  | nil => exact hrest
  | cons name names ih =>
    have hname := h name mem_cons_self
    have hlater := ih fun name hmem => h name (mem_cons_of_mem _ hmem)
    have hstart : ∀ c ∈ (names.flatMap (' ' :: ·) ++ rest).head?, c ∈ [' ', '>'] := by
      cases names with
      | nil => exact fun c hc => mem_cons_of_mem _ (hnext c hc)
      | cons name' names => simp
    rw [flatMap_cons, append_assoc]
    exact scans_lexeme .space (head_name hname) (scans_name hname hstart hlater)

theorem scans_variable {names : List Name} (h : name ∈ identifier.matches')
    (hnames : ∀ name ∈ names, name ∈ identifier.matches') (data : List (Decimal × Decimal))
    (hnext : ∀ c ∈ rest.head?, c ∈ [' ', '<']) (hrest : scanner.Scans .initial rest tokens) :
    scanner.Scans .initial (printVariable name names data ++ rest)
      (variableTokens name names data ++ tokens) := by
  have hbody := scans_names hnames (by simp) (scans_body data (.inl rfl) hnext hrest)
  simp only [printVariable, variableTokens, append_assoc, cons_append, nil_append]
  exact scans_lexeme .lt (by simp [depText]) (scans_lexeme .dep (by simp)
    (scans_lexeme .space (head_name h) (scans_name h (by cases names <;> simp) hbody)))

end Scan

/-! ## The vectors of a dataset -/

/-- A vector as it is printed: with the names it depends on or with its size. -/
structure Printed where
  name : Name
  data : List (Decimal × Decimal)
  dependencies : Option (List Name)

namespace Printed

def print (v : Printed) : List Char :=
  match v.dependencies with
  | some names => printVariable v.name names v.data
  | none => printDependency v.name v.data

def tokens (v : Printed) : List Token :=
  match v.dependencies with
  | some names => variableTokens v.name names v.data
  | none => dependencyTokens v.name v.data

def names (v : Printed) : List Name := v.name :: v.dependencies.getD []

end Printed

def printed (d : Dataset (Decimal × Decimal)) : List Printed :=
  d.dependencies.map (fun v => ⟨v.name, v.data, none⟩) ++
    d.vars.map fun v => ⟨v.name, v.data, v.dependencies⟩

theorem print_eq (d : Dataset (Decimal × Decimal)) :
    d.print = header ++ '\n' :: d.printed.flatMap Printed.print := by
  simp only [print, printed, flatMap_append, flatMap_map, append_assoc, cons_append]
  rfl

theorem scans_printed {vs : List Printed}
    (h : ∀ v ∈ vs, ∀ name ∈ v.names, name ∈ identifier.matches') :
    scanner.Scans .initial (vs.flatMap Printed.print) (vs.flatMap Printed.tokens) ∧
      ∀ c ∈ (vs.flatMap Printed.print).head?, c ∈ [' ', '<'] := by
  induction vs with
  | nil => exact ⟨Scans.nil _, by simp⟩
  | cons v vs ih =>
    obtain ⟨hscans, hnext⟩ := ih fun v hv => h v (mem_cons_of_mem _ hv)
    obtain ⟨name, data, dependencies⟩ := v
    have hnames := h _ mem_cons_self
    have hname := hnames name mem_cons_self
    cases dependencies with
    | none =>
      refine ⟨scans_dependency hname data hnext hscans, ?_⟩
      simp [Printed.print, printDependency]
    | some names =>
      refine ⟨scans_variable hname (fun n hn => hnames n (mem_cons_of_mem _ hn)) data
        hnext hscans, ?_⟩
      simp [Printed.print, printVariable]

/-- **The tokens of the text.** -/
theorem lex_print {d : Dataset (Decimal × Decimal)}
    (h : ∀ v ∈ d.printed, ∀ name ∈ v.names, name ∈ identifier.matches') :
    lex d.print = .version :: .eol :: d.printed.flatMap Printed.tokens := by
  obtain ⟨hscans, hnext⟩ := scans_printed h
  rw [lex, print_eq]
  exact scans_lexeme .header (by simp) (scans_lexeme .eol hnext hscans) _ le_rfl

end Qucs.Dataset
