/-
# Dataset files

`dataset.cpp` with its scanner, its grammar and its checker: how a
dataset is printed and how the text is read again.

* dataset::variables: `Dataset.vars`
* dataset::print, printDependency, printVariable, printData: `Dataset.print`,
  `printDependency`, `printVariable`, `printData`
* parse_dataset.ypp: `identifierList`, `floatList`, `variableVector`, `variableList`,
  `input`

A number in memory is what `%.20e` writes of it, a sign, twenty-one digits and an
exponent (`Decimal`); the number that is read is the exact value of the decimal in
the text. Names are lists of characters. The grammar has one token of
look-ahead, so it is a function on the list of tokens. Sizes are unbounded, as is
the stack of the parser.
-/
import Qucs.Lib.Lexer

namespace Qucs

open Lib.Lexer RegularExpression

namespace Dataset

abbrev Name : Type := List Char

/-! ## Numbers -/

/-- A finite number as `%.20e` sees it. -/
structure Decimal where
  negative : Bool
  lead : Fin 10
  fraction : List.Vector (Fin 10) 20
  exponent : ℤ

namespace Decimal

def digits (x : Decimal) : List (Fin 10) := x.lead :: x.fraction.toList

def mantissa (x : Decimal) : ℕ := x.digits.foldl (fun (n : ℕ) (d : Fin 10) => 10 * n + d) 0

def value (x : Decimal) : ℚ :=
  (if x.negative then -1 else 1) * x.mantissa * 10 ^ (x.exponent - 20)

end Decimal

def signChar (negative : Bool) : Char := if negative then '-' else '+'

def digitChars (ds : List (Fin 10)) : List Char := ds.map fun d : Fin 10 => Nat.digitChar d

def exponentDigits (e : ℤ) : List Char :=
  let ds := Nat.toDigits 10 e.natAbs
  if ds.length < 2 then '0' :: ds else ds

/-- `%.20e` of the magnitude. -/
def printMagnitude (x : Decimal) : List Char :=
  Nat.digitChar x.lead :: '.' :: digitChars x.fraction.toList ++
    'e' :: signChar (x.exponent < 0) :: exponentDigits x.exponent

/-- `%+.20e`. -/
def printSigned (x : Decimal) : List Char := signChar x.negative :: printMagnitude x

/-! ## Datasets -/

/-- An independent vector with values `C`. -/
structure Independent (C : Type) where
  name : Name
  data : List C
  requested : ℤ
  deriving DecidableEq

/-- A dependent vector; the list of its dependencies may be missing. -/
structure Variable (C : Type) where
  name : Name
  data : List C
  dependencies : Option (List Name)
  deriving DecidableEq

end Dataset

structure Dataset (C : Type) where
  dependencies : List (Dataset.Independent C)
  vars : List (Dataset.Variable C)
  deriving DecidableEq

namespace Dataset

/-! ## Printing -/

def printValue (c : Decimal × Decimal) : List Char :=
  if c.2.value = 0 then printSigned c.1
  else printSigned c.1 ++ (if c.2.value ≥ 0 then '+' else '-') :: 'j' :: printMagnitude c.2

def printData (data : List (Decimal × Decimal)) : List Char :=
  data.flatMap fun c => ' ' :: ' ' :: printValue c ++ ['\n']

def depText : List Char := ['d', 'e', 'p']

def indepText : List Char := ['i', 'n', 'd', 'e', 'p']

/-- An independent vector. -/
def printDependency (name : Name) (data : List (Decimal × Decimal)) : List Char :=
  '<' :: indepText ++ ' ' :: name ++ ' ' :: Nat.toDigits 10 data.length ++ '>' :: '\n' ::
    printData data ++ '<' :: '/' :: indepText ++ ['>', '\n']

def printVariable (name : Name) (dependencies : List Name) (data : List (Decimal × Decimal)) :
    List Char :=
  '<' :: depText ++ ' ' :: name ++ dependencies.flatMap (' ' :: ·) ++ '>' :: '\n' ::
    printData data ++ '<' :: '/' :: depText ++ ['>', '\n']

/-- `"<Qucs Dataset " PACKAGE_VERSION ">"`. -/
def header : List Char :=
  ['<', 'Q', 'u', 'c', 's', ' ', 'D', 'a', 't', 'a', 's', 'e', 't', ' ',
    '0', '.', '0', '.', '2', '0', '>']

/-- The header, then all dependencies, then all variables. -/
def print (d : Dataset (Decimal × Decimal)) : List Char :=
  header ++ '\n' :: d.dependencies.flatMap (fun v => printDependency v.name v.data) ++
    d.vars.flatMap fun v =>
      match v.dependencies with
      | some dependencies => printVariable v.name dependencies v.data
      | none => printDependency v.name v.data

/-! ## The scanner -/

/-- `a-b` in a class of characters. -/
def span (a b : Char) : List Char :=
  (List.range (b.toNat + 1 - a.toNat)).map fun i => Char.ofNat (a.toNat + i)

def digit : List Char := span '0' '9'

def alpha : List Char := span 'a' 'z' ++ span 'A' 'Z' ++ ['_']

def ident1 : RegularExpression Char :=
  oneOf alpha * star (oneOf (alpha ++ digit))

def ident2 : RegularExpression Char :=
  oneOf alpha * star (oneOf (alpha ++ digit ++ ['[', ']', ',']))

def ident3 : RegularExpression Char :=
  oneOf (alpha ++ digit) * star (oneOf (alpha ++ digit))

def ident : RegularExpression Char := ident1 + ident2

def pident : RegularExpression Char := ident1 + (ident2 + ident3)

/-- ID. -/
def identifier : RegularExpression Char := ident * star (char '.' * pident)

def exponent : RegularExpression Char :=
  oneOf ['E', 'e'] * (maybe (oneOf ['+', '-']) * many (oneOf digit))

def rint : RegularExpression Char := maybe (oneOf ['+', '-']) * many (oneOf digit)

def iint : RegularExpression Char :=
  maybe (oneOf ['+', '-']) * (oneOf ['i', 'j'] * many (oneOf digit))

def rfloat1 : RegularExpression Char :=
  maybe (oneOf ['+', '-']) * (many (oneOf digit) * exponent)

def rfloat2 : RegularExpression Char :=
  maybe (oneOf ['+', '-']) *
    (star (oneOf digit) * (char '.' * (many (oneOf digit) * maybe exponent)))

def ifloat1 : RegularExpression Char :=
  maybe (oneOf ['+', '-']) * (oneOf ['i', 'j'] * (many (oneOf digit) * exponent))

def ifloat2 : RegularExpression Char :=
  maybe (oneOf ['+', '-']) * (oneOf ['i', 'j'] *
    (star (oneOf digit) * (char '.' * (many (oneOf digit) * maybe exponent))))

def creal : RegularExpression Char := rfloat1 + (rfloat2 + rint)

def cimag : RegularExpression Char := ifloat1 + (ifloat2 + iint)

def versionLine : RegularExpression Char :=
  word (header.take 14) * (many (oneOf digit) * (char '.' * (many (oneOf digit) *
    (char '.' * (many (oneOf digit) * char '>')))))

def newline : RegularExpression Char := maybe (char '\r') * char '\n'

/-- `.`, any byte but the end of a line. -/
def anyByte : RegularExpression Char :=
  oneOf (((List.range 256).map Char.ofNat).filter (· ≠ '\n'))

inductive Condition where
  | initial
  | comment
  | description
  deriving DecidableEq

/-- The rules in their order; `.` and the end of a line stand there again for
comments. -/
inductive Rule where
  | version
  | depBegin
  | indepBegin
  | depEnd
  | indepEnd
  | identifier
  | real
  | imag
  | complex
  | integer
  | lt
  | gt
  | eol
  | space
  | hash
  | invalid
  | skip
  | resume
  deriving DecidableEq

inductive Token where
  | version
  | depBegin
  | indepBegin
  | depEnd
  | indepEnd
  | identifier (name : Name)
  | real (x : ℚ)
  | imag (x : ℚ)
  | complex (r i : ℚ)
  | integer (n : ℤ)
  | lt
  | gt
  | eol
  | invalidCharacter
  deriving DecidableEq

/-- What a rule matches. -/
def pattern : Rule → RegularExpression Char
  | .version => versionLine
  | .depBegin => word depText
  | .indepBegin => word indepText
  | .depEnd => word ('/' :: depText)
  | .indepEnd => word ('/' :: indepText)
  | .identifier => identifier
  | .real => creal
  | .imag => cimag
  | .complex => creal * cimag
  | .integer => rint
  | .lt => char '<'
  | .gt => char '>'
  | .eol => newline
  | .space => oneOf [' ', '\t'] + char '\\' * newline
  | .hash => char '#'
  | .invalid => anyByte
  | .skip => anyByte
  | .resume => newline

def rules : Condition → List Rule
  | .initial => [.version, .identifier, .real, .imag, .complex, .lt, .eol, .space, .hash, .invalid]
  | .description =>
    [.depBegin, .indepBegin, .depEnd, .indepEnd, .identifier, .integer, .gt, .space, .invalid]
  | .comment => [.space, .skip, .resume]

def readSign : List Char → ℤ × List Char
  | [] => (1, [])
  | c :: s => if c = '-' then (-1, s) else if c = '+' then (1, s) else (1, c :: s)

/-- The digits in front, and what is after them. -/
def readDigits (s : List Char) : List Char × List Char :=
  (s.takeWhile Char.isDigit, s.dropWhile Char.isDigit)

def readFraction : List Char → List Char × List Char
  | [] => ([], [])
  | c :: s => if c = '.' then readDigits s else ([], c :: s)

def readExponent : List Char → ℤ
  | [] => 0
  | c :: s =>
    if c = 'e' ∨ c = 'E' then
      let (sign, s) := readSign s
      sign * Nat.ofDigitChars 10 (readDigits s).1 0
    else 0

/-- The value of the decimal that a text begins with. -/
def strtod (s : List Char) : ℚ :=
  let (sign, s) := readSign s
  let (whole, s) := readDigits s
  let (fraction, s) := readFraction s
  sign * Nat.ofDigitChars 10 (whole ++ fraction) 0 * 10 ^ (readExponent s - fraction.length)

/-- An integer to base 10. -/
def strtol (s : List Char) : ℤ :=
  let (sign, s) := readSign s
  sign * Nat.ofDigitChars 10 (readDigits s).1 0

def isUnit (c : Char) : Bool := c = 'i' || c = 'j'

/-- The unit is overwritten with a zero. -/
def imagValue (text : List Char) : ℚ :=
  if text.head?.any isUnit then strtod (text.set 0 '0') else strtod (text.set 1 '0')

/-- The text is cut before the sign of the imaginary part, which takes the place of
the unit. -/
def complexValue (text : List Char) : ℚ × ℚ :=
  let i := text.findIdx isUnit
  (strtod (text.take (i - 1)), strtod ((text.drop (i - 1)).take 1 ++ text.drop (i + 1)))

/-- The token a rule returns. -/
def action (r : Rule) (text : List Char) : Option Token :=
  match r with
  | .version => some .version
  | .depBegin => some .depBegin
  | .indepBegin => some .indepBegin
  | .depEnd => some .depEnd
  | .indepEnd => some .indepEnd
  | .identifier => some (.identifier text)
  | .real => some (.real (strtod text))
  | .imag => some (.imag (imagValue text))
  | .complex => some (.complex (complexValue text).1 (complexValue text).2)
  | .integer => some (.integer (strtol text))
  | .lt => some .lt
  | .gt => some .gt
  | .eol => some .eol
  | .space => none
  | .hash => none
  | .invalid => some .invalidCharacter
  | .skip => none
  | .resume => none

/-- `BEGIN`. -/
def next : Rule → Condition → Condition
  | .lt, _ => .description
  | .gt, _ => .initial
  | .hash, _ => .comment
  | .resume, _ => .initial
  | _, state => state

/-- The scanner of `scan_dataset.lpp`. -/
def scanner : Scanner Char Condition Rule Token where
  rules := rules
  pattern := pattern
  action := action
  next := next

def lex (text : List Char) : List Token := scanner.scan text.length .initial text

/-! ## The grammar -/

/-- IdentifierList: the last name is added first, in front. -/
def identifierList : List Token → List Name × List Token
  | .identifier name :: s => let (names, s) := identifierList s; (name :: names, s)
  | s => ([], s)

/-- FloatList: the last value is added first, at the end. -/
def floatList : List Token → List (ℚ × ℚ) × List Token
  | .real x :: s => let (data, s) := floatList s; (data ++ [(x, 0)], s)
  | .complex r i :: s => let (data, s) := floatList s; (data ++ [(r, i)], s)
  | .imag x :: s => let (data, s) := floatList s; (data ++ [(0, x)], s)
  | .eol :: s => floatList s
  | s => ([], s)

variable (d : Dataset (ℚ × ℚ))

def appendVariable (v : Variable (ℚ × ℚ)) : Dataset (ℚ × ℚ) :=
  { d with vars := d.vars ++ [v] }

def appendDependency (v : Independent (ℚ × ℚ)) : Dataset (ℚ × ℚ) :=
  { d with dependencies := d.dependencies ++ [v] }

/-- Variable, after its `'<'`. -/
def variableVector : List Token → Option (Dataset (ℚ × ℚ) × List Token)
  | .depBegin :: .identifier name :: s =>
    match identifierList s with
    | (names, .gt :: s) =>
      match floatList s with
      | (data, .lt :: .depEnd :: .gt :: s) =>
        some (appendVariable d ⟨name, data.reverse, some names⟩, s)
      | _ => none
    | _ => none
  | .indepBegin :: .identifier name :: .integer n :: .gt :: s =>
    match floatList s with
    | (data, .lt :: .indepEnd :: .gt :: s) => some (appendDependency d ⟨name, data.reverse, n⟩, s)
    | _ => none
  | _ => none

/-- VariableList, with as much fuel as there are tokens. -/
def variableList : ℕ → Dataset (ℚ × ℚ) → List Token → Option (Dataset (ℚ × ℚ))
  | _, d, [] => some d
  | 0, _, _ :: _ => none
  | fuel + 1, d, .eol :: s => variableList fuel d s
  | fuel + 1, d, .lt :: s => (variableVector d s).bind fun (d, s) => variableList fuel d s
  | _ + 1, _, _ :: _ => none

/-- Input. -/
def input : List Token → Option (Dataset (ℚ × ℚ))
  | .version :: .eol :: s => variableList s.length ⟨[], []⟩ s
  | _ => none

/-! ## The checker -/

section Check

variable {C : Type}

variable (d : Dataset C)

def findDependency (name : Name) : Option (Independent C) :=
  d.dependencies.find? fun v => v.name = name

/-- One round of the loop over the dependencies: the product of the sizes, and the
errors. -/
def multiplySize (s : ℕ × ℕ) (name : Name) : ℕ × ℕ :=
  match d.findDependency name with
  | none => (s.1, s.2 + 1)
  | some v => (s.1 * v.data.length, s.2)

def dependencySizes (names : List Name) : ℕ × ℕ :=
  names.foldl d.multiplySize (1, 0)

def checkDependency (v : Independent C) : ℕ := if (v.data.length : ℤ) ≠ v.requested then 1 else 0

def checkVariable (v : Variable C) : ℕ :=
  match v.dependencies with
  | none => 1
  | some [] => 1
  | some names =>
    let (n, errors) := d.dependencySizes names
    errors + if n ≠ 0 ∧ v.data.length % n ≠ 0 then 1 else 0

/-- No errors are counted. -/
def check : Bool :=
  (d.dependencies.map checkDependency).sum + (d.vars.map d.checkVariable).sum = 0

end Check

/-! ## Loading -/

/-- What is read, if it is accepted. -/
def load (text : List Char) : Option (Dataset (ℚ × ℚ)) :=
  (input (lex text)).filter check

/-- The dataset with the values that were printed. -/
def exact (d : Dataset (Decimal × Decimal)) : Dataset (ℚ × ℚ) where
  dependencies := d.dependencies.map fun v =>
    ⟨v.name, v.data.map (Prod.map Decimal.value Decimal.value), v.data.length⟩
  vars := d.vars.map fun v =>
    ⟨v.name, v.data.map (Prod.map Decimal.value Decimal.value), v.dependencies⟩

end Dataset

end Qucs
