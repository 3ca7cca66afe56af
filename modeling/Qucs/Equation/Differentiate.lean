/-
# Symbolic differentiation

`differentiate.cpp`: one rule per function of the table
`differentiations`, each building its result through the simplifying
constructors `plus_reduce`, `times_reduce` and so on. The rules get the
arguments `f0`, `f1` of the application and their derivatives `d0`, `d1`;
`differentiate` itself is `node::differentiate` of the three node classes.

The tree is typed here: an expression of double type (`Expr`) or a condition
(`Cond`), which is the first argument of `?:` and is never differentiated.
The functions with an entry in the table are enumerated by their number of
arguments. Any other function of the evaluator has its name and its arguments
(`app`); `application::differentiate` hands back a copy of the application.

Constants are elements of a field `K` with the few functions of the C library
that the rules call on constants (`Libm`); the tests `isZero`, `isOne`,
`isNeg` and `isEuler` compare such elements. A copy of a node (`recreate`) is the
node.
-/
import Qucs.Lib.Numerals

namespace Qucs

/-- The functions of one argument in the table `differentiations`. -/
inductive Fn1 where
  | plus | minus | ln | log10 | log2 | sqrt | exp | sinc | norm | sin | cos | tan | sec | cot
  | cosec | abs | step | sign | arcsin | arccos | arctan | arccot | arcsec | arccosec | sqr
  | sinh | cosh | tanh | coth | arsinh | arcosh | artanh | arcoth | arsech | arcosech | limexp
  | vt
  deriving DecidableEq, Repr

inductive Fn2 where
  | plus | minus | times | div | power | hypot
  deriving DecidableEq, Repr

inductive Comparison where
  | less | greater | lessorequal | greaterorequal | equal | notequal
  deriving DecidableEq, Repr

mutual

/-- An expression of double type. -/
inductive Expr (K : Type) where
  | constant (d : K)
  | reference (n : String)
  | app1 (f : Fn1) (f0 : Expr K)
  | app2 (f : Fn2) (f0 f1 : Expr K)
  | app (n : String) {nargs : ℕ} (args : Fin nargs → Expr K)
  | ifthenelse (c : Cond K) (f1 f2 : Expr K)

/-- An expression of boolean type. -/
inductive Cond (K : Type) where
  | constant (b : Bool)
  | reference (n : String)
  | compare (op : Comparison) (f0 f1 : Expr K)
  | not (c : Cond K)
  | and (c c' : Cond K)
  | or (c c' : Cond K)
  | xor (c c' : Cond K)

end

/-- The C library functions the rules evaluate on constants, and the constant
`euler` they compare with. -/
class Libm (K : Type) where
  pow : K → K → K
  exp : K → K
  xhypot : K → K → K
  euler : K

namespace Expr

section Tests

variable {K : Type}

/-- `isConst`, with the value of the constant. -/
def const? : Expr K → Option K
  | .constant d => some d
  | _ => none

variable [Field K] [DecidableEq K]

def isZero (n : Expr K) : Bool := n.const? == some 0

def isOne (n : Expr K) : Bool := n.const? == some 1

def isNeg (n : Expr K) : Bool := n.const? == some (-1)

/-- `isRef (r, v)`. -/
def isRef (v : String) : Expr K → Bool
  | .reference n => n == v
  | _ => false

/-- `isEuler`: the constant, or a reference to the variable `e`. -/
def isEuler [Libm K] (n : Expr K) : Bool := n.const? == some Libm.euler || n.isRef "e"

end Tests

section Reduce

variable {K : Type} [Field K] [DecidableEq K] (f0 f1 : Expr K)

def plusReduce : Expr K :=
  if f0.isZero && f1.isZero then .constant 0
  else if f0.isZero then f1
  else if f1.isZero then f0
  else match f0.const?, f1.const? with
    | some a, some b => .constant (a + b)
    | _, _ => .app2 .plus f0 f1

/-- `minus_reduce` of one argument. -/
def minusReduce1 : Expr K :=
  if f0.isZero then .constant 0
  else match f0.const? with
    | some a => .constant (-a)
    | none => .app1 .minus f0

/-- `minus_reduce` of two arguments. -/
def minusReduce : Expr K :=
  if f0.isZero && f1.isZero then .constant 0
  else if f0.isZero then minusReduce1 f1
  else if f1.isZero then f0
  else match f0.const?, f1.const? with
    | some a, some b => .constant (a - b)
    | _, _ => .app2 .minus f0 f1

def timesReduce : Expr K :=
  if f0.isZero || f1.isZero then .constant 0
  else if f0.isOne then f1
  else if f0.isNeg then minusReduce1 f1
  else if f1.isOne then f0
  else if f1.isNeg then minusReduce1 f0
  else match f0.const?, f1.const? with
    | some a, some b => .constant (a * b)
    | _, _ => .app2 .times f0 f1

/-- `over_reduce_adv`: `x / sqr (x)` becomes `1 / x`. -/
def overReduceAdv : Expr K → Expr K → Expr K × Expr K
  | .reference n, .app1 .sqr (.reference m) =>
    if n = m then (.constant 1, .reference m)
    else (.reference n, .app1 .sqr (.reference m))
  | f0, f1 => (f0, f1)

def overReduce : Expr K :=
  if f0.isOne && f1.isOne then .constant 1
  else if f0.isZero then .constant 0
  else match f0.const?, f1.const? with
    | some a, some b => if f1.isZero then .app2 .div f0 f1 else .constant (a / b)
    | _, _ =>
      if f1.isOne then f0
      else if f1.isNeg then minusReduce1 f0
      else .app2 .div (overReduceAdv f0 f1).1 (overReduceAdv f0 f1).2

def sqrReduce : Expr K :=
  if f0.isOne then .constant 1
  else if f0.isZero then .constant 0
  else match f0.const? with
    | some a => .constant (a * a)
    | none => .app1 .sqr f0

def sqrtReduce : Expr K :=
  if f0.isOne then .constant 1
  else if f0.isZero then .constant 0
  else .app1 .sqrt f0

/-- `app_reduce`: the chain rule for the derivative `func` of a function. -/
def appReduce (func : Fn1) (d0 f0 : Expr K) : Expr K :=
  if d0.isOne then .app1 func f0
  else if d0.isZero then .constant 0
  else timesReduce d0 (.app1 func f0)

variable [Libm K]

def powerReduce (f0 f1 : Expr K) : Expr K :=
  if f0.isOne then .constant 1
  else if f0.isZero then .constant 0
  else match f0.const?, f1.const? with
    | some a, some b => if f1.isZero then .constant 1 else .constant (Libm.pow a b)
    | _, _ => if f1.isOne then f0 else .app2 .power f0 f1

def lnReduce (f0 : Expr K) : Expr K :=
  if f0.isOne then .constant 0
  else if f0.isEuler then .constant 1
  else .app1 .ln f0

def hypotReduce (f0 f1 : Expr K) : Expr K :=
  if f0.isZero && f1.isZero then .constant 0
  else if f0.isZero then sqrtReduce (sqrReduce f1)
  else if f1.isZero then sqrtReduce (sqrReduce f0)
  else match f0.const?, f1.const? with
    | some a, some b => .constant (Libm.xhypot a b)
    | _, _ => .app2 .hypot f0 f1

end Reduce

/-! ## The rules -/

section Rules

variable {K : Type} [Field K] [DecidableEq K] (f0 f1 d0 d1 : Expr K)

/-- `limitexp` of `consts.h`. -/
def limitexp : K := 80

/-- `kBoverQ` of `constants.h`, `0.86173433260414314916e-4`. -/
def kBoverQ : K := 86173433260414314916 / 10 ^ 24

def plusUnary : Expr K := d0

def minusUnary : Expr K := minusReduce1 d0

def plusBinary : Expr K :=
  if d0.const?.isNone && d1.const?.isNone then .app2 .plus d0 d1 else plusReduce d0 d1

def minusBinary : Expr K :=
  if d0.const?.isNone && d1.const?.isNone then .app2 .minus d0 d1 else minusReduce d0 d1

def times : Expr K :=
  if f0.const?.isSome && f1.const?.isSome then .constant 0
  else plusReduce (timesReduce f0 d1) (timesReduce f1 d0)

/-- `differentiate::over`. -/
def overBinary : Expr K :=
  if f0.const?.isSome && f1.const?.isSome then .constant 0
  else overReduce (minusReduce (timesReduce f1 d0) (timesReduce f0 d1)) (sqrReduce f1)

def ln : Expr K := overReduce d0 f0

def exp : Expr K := appReduce .exp d0 f0

def sin : Expr K := appReduce .cos d0 f0

def cos : Expr K := appReduce .sin (minusReduce1 d0) f0

def sinh : Expr K := appReduce .cosh d0 f0

def cosh : Expr K := appReduce .sinh d0 f0

def abs : Expr K := appReduce .sign d0 f0

def step : Expr K := .constant 0

def sign : Expr K := .constant 0

def sqrt : Expr K :=
  overReduce (timesReduce (.constant (1 / 2)) d0) (sqrtReduce f0)

/-- `square`, the rule of `sqr`. -/
def square : Expr K := timesReduce (timesReduce (.constant 2) d0) f0

def sinc : Expr K :=
  timesReduce d0 (overReduce (minusReduce (.app1 .cos f0) (.app1 .sinc f0)) f0)

def norm : Expr K := timesReduce (timesReduce d0 (.constant 2)) f0

def arcsin : Expr K :=
  overReduce d0 (sqrtReduce (minusReduce (.constant 1) (sqrReduce f0)))

def arccos : Expr K :=
  overReduce (minusReduce1 d0) (sqrtReduce (minusReduce (.constant 1) (sqrReduce f0)))

def arctan : Expr K :=
  overReduce d0 (plusReduce (.constant 1) (sqrReduce f0))

def arccot : Expr K :=
  overReduce (minusReduce1 d0) (plusReduce (.constant 1) (sqrReduce f0))

def arcsec : Expr K :=
  overReduce d0 (timesReduce f0 (sqrtReduce (minusReduce (sqrReduce f0) (.constant 1))))

def arccosec : Expr K :=
  overReduce (minusReduce1 d0)
    (timesReduce f0 (sqrtReduce (minusReduce (sqrReduce f0) (.constant 1))))

def artanh : Expr K :=
  overReduce d0 (minusReduce (.constant 1) (sqrReduce f0))

def arcoth : Expr K :=
  overReduce (minusReduce1 d0) (minusReduce (sqrReduce f0) (.constant 1))

def arcosh : Expr K :=
  overReduce d0 (sqrtReduce (minusReduce (sqrReduce f0) (.constant 1)))

def arsinh : Expr K :=
  overReduce d0 (sqrtReduce (plusReduce (sqrReduce f0) (.constant 1)))

def arsech : Expr K :=
  overReduce (minusReduce1 d0)
    (timesReduce f0 (sqrtReduce (minusReduce (.constant 1) (sqrReduce f0))))

def arcosech : Expr K :=
  overReduce (minusReduce1 d0)
    (timesReduce f0 (sqrtReduce (plusReduce (.constant 1) (sqrReduce f0))))

def vt : Expr K := timesReduce d0 (.constant kBoverQ)

/-- `ifthenelse`: equal constants need no case distinction. -/
def ifthenelseRule (c : Cond K) (d1 d2 : Expr K) : Expr K :=
  match d1.const?, d2.const? with
  | some a, some b => if a = b then .constant a else .ifthenelse c d1 d2
  | _, _ => .ifthenelse c d1 d2

end Rules

section LibmRules

variable {K : Type} [Field K] [DecidableEq K] [Libm K] (f0 f1 d0 d1 : Expr K)

/-- The rule of `^`. A derivative `d1` of the exponent that is the constant 0
selects the power rule, any other the general one. -/
def power : Expr K :=
  if f0.const?.isSome && f1.const?.isSome then .constant 0
  else if d1.isZero then
    timesReduce (timesReduce f1 (powerReduce f0 (minusReduce f1 (.constant 1)))) d0
  else
    timesReduce (powerReduce f0 f1)
      (plusReduce (timesReduce d1 (lnReduce f0)) (overReduce (timesReduce f1 d0) f0))

/-- A logarithm to the given base. -/
def logRule (base : K) (f0 d0 : Expr K) : Expr K :=
  overReduce (overReduce d0 f0) (lnReduce (.constant base))

def log10 : Expr K := logRule 10 f0 d0

def log2 : Expr K := logRule 2 f0 d0

def limexp : Expr K :=
  timesReduce d0 (.ifthenelse (.compare .less f0 (.constant limitexp)) (.app1 .exp f0)
    (.constant (Libm.exp limitexp)))

def tan : Expr K :=
  timesReduce d0 (powerReduce (.app1 .sec f0) (.constant 2))

def sec : Expr K :=
  timesReduce d0 (overReduce (.app1 .sin f0) (powerReduce (.app1 .cos f0) (.constant 2)))

def cot : Expr K :=
  timesReduce (minusReduce1 d0) (powerReduce (.app1 .cosec f0) (.constant 2))

def cosec : Expr K :=
  timesReduce (minusReduce1 d0)
    (overReduce (.app1 .cos f0) (powerReduce (.app1 .sin f0) (.constant 2)))

def tanh : Expr K :=
  overReduce d0 (powerReduce (.app1 .cosh f0) (.constant 2))

def coth : Expr K :=
  overReduce (minusReduce1 d0) (powerReduce (.app1 .sinh f0) (.constant 2))

def xhypot : Expr K :=
  overReduce (plusReduce (timesReduce d0 f0) (timesReduce d1 f1)) (hypotReduce f0 f1)

/-- The table `differentiations`, functions of one argument. -/
def derive1 : Fn1 → Expr K
  | .plus => plusUnary d0
  | .minus => minusUnary d0
  | .ln => ln f0 d0
  | .log10 => log10 f0 d0
  | .log2 => log2 f0 d0
  | .sqrt => sqrt f0 d0
  | .exp => exp f0 d0
  | .sinc => sinc f0 d0
  | .norm => norm f0 d0
  | .sin => sin f0 d0
  | .cos => cos f0 d0
  | .tan => tan f0 d0
  | .sec => sec f0 d0
  | .cot => cot f0 d0
  | .cosec => cosec f0 d0
  | .abs => abs f0 d0
  | .step => step
  | .sign => sign
  | .arcsin => arcsin f0 d0
  | .arccos => arccos f0 d0
  | .arctan => arctan f0 d0
  | .arccot => arccot f0 d0
  | .arcsec => arcsec f0 d0
  | .arccosec => arccosec f0 d0
  | .sqr => square f0 d0
  | .sinh => sinh f0 d0
  | .cosh => cosh f0 d0
  | .tanh => tanh f0 d0
  | .coth => coth f0 d0
  | .arsinh => arsinh f0 d0
  | .arcosh => arcosh f0 d0
  | .artanh => artanh f0 d0
  | .arcoth => arcoth f0 d0
  | .arsech => arsech f0 d0
  | .arcosech => arcosech f0 d0
  | .limexp => limexp f0 d0
  | .vt => vt d0

/-- The table `differentiations`, functions of two arguments. -/
def derive2 : Fn2 → Expr K
  | .plus => plusBinary d0 d1
  | .minus => minusBinary d0 d1
  | .times => times f0 f1 d0 d1
  | .div => overBinary f0 f1 d0 d1
  | .power => power f0 f1 d0 d1
  | .hypot => xhypot f0 f1 d0 d1

/-- `node::differentiate` with respect to the variable `derivative`. -/
def differentiate (derivative : String) : Expr K → Expr K
  | .constant _ => .constant 0
  | .reference n => .constant (if n = derivative then 1 else 0)
  | .app1 f f0 => derive1 f0 (f0.differentiate derivative) f
  | .app2 f f0 f1 => derive2 f0 f1 (f0.differentiate derivative) (f1.differentiate derivative) f
  | .app n args => .app n args
  | .ifthenelse c f1 f2 =>
    ifthenelseRule c (f1.differentiate derivative) (f2.differentiate derivative)

end LibmRules

end Expr

end Qucs
