/-
# The derivative tree evaluates to the derivative

Over the reals, with the evaluator as a partial function: an application is
undefined where the function has no real value, and it evaluates all of its
arguments, those of `?:` included (`Expr.eval`).

**The reduce helpers preserve values** (`plusReduce_eval` and its kin): from
values of the parts one has the value of the reduced sum, product and so on.
Two of them need a side condition. `over_reduce` needs a divisor that is not
zero, and `power_reduce` maps the constant base 0 to 0 whatever the exponent.

**Absent variables** (`differentiate_of_not_occurs`): the derivative with
respect to a variable that does not occur is the constant 0, as a tree, unless an
application without a rule is differentiated (`hasRules`).

**Present variables** (`differentiate_eval`): the derivative tree evaluates
to the partial derivative, at every environment around which the expression
is defined, provided that

* in `sqrt f`, f is not 0 there, or the variable does not occur in f
* in `f ^ g`, f is positive there, or the variable does not occur in g and f is not 0,
  or g is at least 1, or the variable is not in f
* in `c ? f : g`, c does not change its value around the environment
* `e` is bound to Euler's number, as `checker::constants` does it

The first two are not implied by differentiability: `sqrt (x ^ 4)` is
differentiable at 0, but its derivative tree is a quotient of zeros
(`differentiate_rootOfFourthPower`).
-/
import Qucs.Equation.Differentiate

namespace Qucs

open Filter Topology Option Real Eventually Cond List

/-! ## Evaluation over the reals -/

/-- The variables, and the functions that have no rule. -/
structure Env where
  double : String → ℝ
  boolean : String → Bool
  function : String → List ℝ → Option ℝ

noncomputable def Env.set (env : Env) (v : String) (t : ℝ) : Env :=
  { env with double := Function.update env.double v t }

/-- `std::pow` has a real value. -/
def PowDefined (x y : ℝ) : Prop := 0 < x ∨ (x = 0 ∧ 0 ≤ y) ∨ (x < 0 ∧ ∃ n : ℤ, y = n)

theorem powDefined_natCast (x : ℝ) (n : ℕ) : PowDefined x n := by
  rcases lt_trichotomy x 0 with hx | hx | hx
  · exact Or.inr (Or.inr ⟨hx, n, by norm_cast⟩)
  · exact Or.inr (Or.inl ⟨hx, n.cast_nonneg⟩)
  · exact Or.inl hx

noncomputable instance : Libm ℝ where
  pow x y := x ^ y
  exp := Real.exp
  xhypot a b := √(a * a + b * b)
  euler := Real.exp 1

open Classical in
/-- The functions of one argument in `evaluate.cpp`, where they are real. -/
noncomputable def eval1 : Fn1 → ℝ → Option ℝ
  | .plus, x => some x
  | .minus, x => some (-x)
  | .ln, x => if 0 < x then some (Real.log x) else none
  | .log10, x => if 0 < x then some (Real.log x / Real.log 10) else none
  | .log2, x => if 0 < x then some (Real.log x / Real.log 2) else none
  | .sqrt, x => if 0 ≤ x then some √x else none
  | .exp, x => some (Real.exp x)
  | .sinc, x => some (if x = 0 then 1 else Real.sin x / x)
  | .norm, x => some (x * x)
  | .sin, x => some (Real.sin x)
  | .cos, x => some (Real.cos x)
  | .tan, x => if Real.cos x ≠ 0 then some (Real.tan x) else none
  | .sec, x => if Real.cos x ≠ 0 then some (1 / Real.cos x) else none
  | .cot, x => if Real.cos x ≠ 0 ∧ Real.sin x ≠ 0 then some (1 / Real.tan x) else none
  | .cosec, x => if Real.sin x ≠ 0 then some (1 / Real.sin x) else none
  | .abs, x => some |x|
  | .step, x => some (if x < 0 then 0 else if 0 < x then 1 else 1 / 2)
  | .sign, x => some (if x < 0 then -1 else 1)
  | .arcsin, x => if -1 ≤ x ∧ x ≤ 1 then some (Real.arcsin x) else none
  | .arccos, x => if -1 ≤ x ∧ x ≤ 1 then some (Real.arccos x) else none
  | .arctan, x => some (Real.arctan x)
  | .arccot, x => some (Real.pi / 2 - Real.arctan x)
  | .arcsec, x => if 1 ≤ |x| then some (Real.arccos (1 / x)) else none
  | .arccosec, x => if 1 ≤ |x| then some (Real.arcsin (1 / x)) else none
  | .sqr, x => some (x * x)
  | .sinh, x => some (Real.sinh x)
  | .cosh, x => some (Real.cosh x)
  | .tanh, x => some (Real.tanh x)
  | .coth, x => if x ≠ 0 then some (1 / Real.tanh x) else none
  | .arsinh, x => some (Real.log (x + √(x * x + 1)))
  | .arcosh, x => if 1 ≤ x then some (Real.log (x + √(x * x - 1))) else none
  | .artanh, x => if -1 < x ∧ x < 1 then some (1 / 2 * Real.log ((1 + x) / (1 - x))) else none
  | .arcoth, x => if 1 < |x| then some (1 / 2 * Real.log ((x + 1) / (x - 1))) else none
  | .arsech, x => if 0 < x ∧ x ≤ 1 then some (Real.log ((1 + √(1 - x * x)) / x)) else none
  | .arcosech, x => if x ≠ 0 then some (Real.log (1 / x + √(1 / x * (1 / x) + 1))) else none
  | .limexp, x =>
    some (if x < Expr.limitexp then Real.exp x
      else Real.exp Expr.limitexp * (1 + (x - Expr.limitexp)))
  | .vt, x => some (x * Expr.kBoverQ)

open Classical in
/-- The functions of two arguments in `evaluate.cpp`, where they are real. -/
noncomputable def eval2 : Fn2 → ℝ → ℝ → Option ℝ
  | .plus, x, y => some (x + y)
  | .minus, x, y => some (x - y)
  | .times, x, y => some (x * y)
  | .div, x, y => if y ≠ 0 then some (x / y) else none
  | .power, x, y => if PowDefined x y then some (x ^ y) else none
  | .hypot, x, y => some √(x * x + y * y)

noncomputable def Comparison.eval : Comparison → ℝ → ℝ → Bool
  | .less, x, y => decide (x < y)
  | .greater, x, y => decide (x > y)
  | .lessorequal, x, y => decide (x ≤ y)
  | .greaterorequal, x, y => decide (x ≥ y)
  | .equal, x, y => decide (x = y)
  | .notequal, x, y => decide (x ≠ y)

mutual

/-- `evaluate` of an expression of double type. All arguments are evaluated
before the function is. -/
noncomputable def Expr.eval (env : Env) : Expr ℝ → Option ℝ
  | .constant d => some d
  | .reference n => some (env.double n)
  | .app1 f f0 => (f0.eval env).bind (eval1 f)
  | .app2 f f0 f1 => (f0.eval env).bind fun x => (f1.eval env).bind (eval2 f x)
  | .app n args =>
    ((List.ofFn fun i => (args i).eval env).mapM id).bind (env.function n)
  | .ifthenelse c f1 f2 =>
    (c.eval env).bind fun b => (f1.eval env).bind fun x =>
      (f2.eval env).map fun y => if b then x else y

noncomputable def Cond.eval (env : Env) : Cond ℝ → Option Bool
  | .constant b => some b
  | .reference n => some (env.boolean n)
  | .compare op f0 f1 => (f0.eval env).bind fun x => (f1.eval env).map (op.eval x)
  | .not c => (c.eval env).map (!·)
  | .and c c' => (c.eval env).bind fun b => (c'.eval env).map (b && ·)
  | .or c c' => (c.eval env).bind fun b => (c'.eval env).map (b || ·)
  | .xor c c' => (c.eval env).bind fun b => (c'.eval env).map (b ^^ ·)

end

namespace Expr

theorem eval_app1 {env : Env} {f : Fn1} {f0 : Expr ℝ} {x : ℝ} (h0 : f0.eval env = some x) :
    (Expr.app1 f f0).eval env = eval1 f x := by
  rw [Expr.eval, h0, bind_some]

theorem eval_app2 {env : Env} {f : Fn2} {f0 f1 : Expr ℝ} {x y : ℝ} (h0 : f0.eval env = some x)
    (h1 : f1.eval env = some y) : (Expr.app2 f f0 f1).eval env = eval2 f x y := by
  rw [Expr.eval, h0, h1, bind_some, bind_some]

/-! ## The tests -/

section Tests

variable {K : Type} {f : Expr K}

theorem const?_eq_some {c : K} : f.const? = some c ↔ f = .constant c := by
  cases f <;> simp [const?]

variable [Field K] [DecidableEq K]

theorem isZero_iff : f.isZero ↔ f = .constant 0 := by simp [isZero, const?_eq_some]

theorem isOne_iff : f.isOne ↔ f = .constant 1 := by simp [isOne, const?_eq_some]

theorem isNeg_iff : f.isNeg ↔ f = .constant (-1) := by simp [isNeg, const?_eq_some]

end Tests

/-! ## The reduce helpers preserve values -/

section Reduce

variable {env : Env} {f0 f1 : Expr ℝ} {x y : ℝ}

theorem eval_constant {c : ℝ} (h : f0 = .constant c) (h0 : f0.eval env = some x) : x = c := by
  subst h
  exact (some.inj h0).symm

theorem eval_const? {c : ℝ} (h : f0.const? = some c) (h0 : f0.eval env = some x) : x = c :=
  eval_constant (const?_eq_some.mp h) h0

theorem eval_isZero (h : f0.isZero) (h0 : f0.eval env = some x) : x = 0 :=
  eval_constant (isZero_iff.mp h) h0

theorem eval_isOne (h : f0.isOne) (h0 : f0.eval env = some x) : x = 1 :=
  eval_constant (isOne_iff.mp h) h0

theorem eval_isNeg (h : f0.isNeg) (h0 : f0.eval env = some x) : x = -1 :=
  eval_constant (isNeg_iff.mp h) h0

section

variable (h0 : f0.eval env = some x)
include h0

theorem plusReduce_eval (h1 : f1.eval env = some y) :
    (plusReduce f0 f1).eval env = some (x + y) := by
  unfold plusReduce
  split_ifs with hz hz0 hz1
  · obtain ⟨hz0, hz1⟩ := Bool.and_eq_true_iff.mp hz
    rw [eval_isZero hz0 h0, eval_isZero hz1 h1, add_zero]
    rfl
  · rw [eval_isZero hz0 h0, zero_add, h1]
  · rw [eval_isZero hz1 h1, add_zero, h0]
  · split
    · next a b ha hb => rw [eval_const? ha h0, eval_const? hb h1]; rfl
    · rw [eval_app2 h0 h1]; rfl

theorem minusReduce1_eval : (minusReduce1 f0).eval env = some (-x) := by
  unfold minusReduce1
  split_ifs with hz
  · rw [eval_isZero hz h0, neg_zero]
    rfl
  · split
    · next a ha => rw [eval_const? ha h0]; rfl
    · rw [eval_app1 h0]; rfl

section

variable (h1 : f1.eval env = some y)
include h1

theorem minusReduce_eval : (minusReduce f0 f1).eval env = some (x - y) := by
  unfold minusReduce
  split_ifs with hz hz0 hz1
  · obtain ⟨hz0, hz1⟩ := Bool.and_eq_true_iff.mp hz
    rw [eval_isZero hz0 h0, eval_isZero hz1 h1, sub_zero]
    rfl
  · rw [eval_isZero hz0 h0, zero_sub, minusReduce1_eval h1]
  · rw [eval_isZero hz1 h1, sub_zero, h0]
  · split
    · next a b ha hb => rw [eval_const? ha h0, eval_const? hb h1]; rfl
    · rw [eval_app2 h0 h1]; rfl

theorem timesReduce_eval : (timesReduce f0 f1).eval env = some (x * y) := by
  unfold timesReduce
  split_ifs with hz ho0 hn0 ho1 hn1
  · cases Bool.or_eq_true_iff.mp hz with
    | inl hz => rw [eval_isZero hz h0, zero_mul]; rfl
    | inr hz => rw [eval_isZero hz h1, mul_zero]; rfl
  · rw [eval_isOne ho0 h0, one_mul, h1]
  · rw [eval_isNeg hn0 h0, neg_one_mul, minusReduce1_eval h1]
  · rw [eval_isOne ho1 h1, mul_one, h0]
  · rw [eval_isNeg hn1 h1, mul_neg_one, minusReduce1_eval h0]
  · split
    · next a b ha hb => rw [eval_const? ha h0, eval_const? hb h1]; rfl
    · rw [eval_app2 h0 h1]; rfl

theorem overReduceAdv_eval (hy : y ≠ 0) :
    (Expr.app2 .div (overReduceAdv f0 f1).1 (overReduceAdv f0 f1).2).eval env = some (x / y) := by
  unfold overReduceAdv
  split
  · next n m =>
      split_ifs with hnm
      · subst hnm
        have hx := some.inj h0
        have hy' : x * x = y := by rw [← hx]; exact some.inj h1
        have hx0 : x ≠ 0 := by
          intro h
          exact hy (by rw [← hy', h, mul_zero])
        rw [eval_app2 rfl h0, eval2, if_pos hx0, ← hy']
        congr 1
        field_simp
      · rw [eval_app2 h0 h1, eval2, if_pos hy]
  · rw [eval_app2 h0 h1, eval2, if_pos hy]

theorem overReduce_eval (hy : y ≠ 0) : (overReduce f0 f1).eval env = some (x / y) := by
  unfold overReduce
  split
  · next ho =>
      obtain ⟨ho0, ho1⟩ := Bool.and_eq_true_iff.mp ho
      rw [eval_isOne ho0 h0, eval_isOne ho1 h1, div_one]
      rfl
  · split
    · next hz => rw [eval_isZero hz h0, zero_div]; rfl
    · split
      · next a b ha hb =>
          rw [if_neg fun hz => hy (eval_isZero hz h1), eval_const? ha h0, eval_const? hb h1]
          rfl
      · split_ifs with ho1 hn1
        · rw [eval_isOne ho1 h1, div_one, h0]
        · rw [eval_isNeg hn1 h1, div_neg, div_one, minusReduce1_eval h0]
        · exact overReduceAdv_eval h0 h1 hy

end

theorem sqrReduce_eval : (sqrReduce f0).eval env = some (x * x) := by
  unfold sqrReduce
  split_ifs with ho hz
  · rw [eval_isOne ho h0, one_mul]
    rfl
  · rw [eval_isZero hz h0, zero_mul]
    rfl
  · split
    · next a ha => rw [eval_const? ha h0]; rfl
    · rw [eval_app1 h0]; rfl

theorem sqrtReduce_eval (hx : 0 ≤ x) : (sqrtReduce f0).eval env = some √x := by
  unfold sqrtReduce
  split_ifs with ho hz
  · rw [eval_isOne ho h0, sqrt_one]
    rfl
  · rw [eval_isZero hz h0, sqrt_zero]
    rfl
  · rw [eval_app1 h0, eval1, if_pos hx]

end

theorem appReduce_eval {func : Fn1} {d z : ℝ} {d0 : Expr ℝ} (hd : d0.eval env = some d)
    (h0 : f0.eval env = some x) (hz : eval1 func x = some z) :
    (appReduce func d0 f0).eval env = some (d * z) := by
  have happ := (eval_app1 h0).trans hz
  unfold appReduce
  split_ifs with ho hz0
  · rw [eval_isOne ho hd, one_mul, happ]
  · rw [eval_isZero hz0 hd, zero_mul]
    rfl
  · exact timesReduce_eval hd happ

/-- The constant base 0 is mapped to 0 whatever the exponent is; otherwise
the value is the power. -/
theorem powerReduce_eval (h0 : f0.eval env = some x) (h1 : f1.eval env = some y)
    (hxy : PowDefined x y) (hx : x ≠ 0 ∨ f0.const? = none) :
    (powerReduce f0 f1).eval env = some (x ^ y) := by
  have hzero : f0.isZero = false := by
    cases hx with
    | inl hx => exact Bool.eq_false_iff.mpr fun h => hx (eval_isZero h h0)
    | inr hx => simp [isZero, hx]
  unfold powerReduce
  rw [hzero]
  split
  · next ho => rw [eval_isOne ho h0, one_rpow]; rfl
  · rw [if_neg Bool.false_ne_true]
    split
    · next a b ha hb =>
        split
        · next hz1 => rw [eval_isZero hz1 h1, rpow_zero]; rfl
        · rw [eval_const? ha h0, eval_const? hb h1]; rfl
    · split
      · next ho1 => rw [eval_isOne ho1 h1, rpow_one, h0]
      · rw [eval_app2 h0 h1, eval2, if_pos hxy]

/-- The reference `e` counts as Euler's number. -/
theorem lnReduce_eval (he : env.double "e" = Real.exp 1) (h0 : f0.eval env = some x)
    (hx : 0 < x) : (lnReduce f0).eval env = some (Real.log x) := by
  unfold lnReduce
  split_ifs with ho heu
  · rw [eval_isOne ho h0, log_one]
    rfl
  · have hxe : x = Real.exp 1 := by
      cases Bool.or_eq_true_iff.mp heu with
      | inl h => exact eval_const? (c := Libm.euler) (by simpa using h) h0
      | inr h =>
        cases f0 with
        | reference n =>
          have hn : n = "e" := by simpa [isRef] using h
          rw [← he, ← hn]
          exact (some.inj h0).symm
        | _ => exact absurd h (by simp [isRef])
    rw [hxe, log_exp]
    rfl
  · rw [eval_app1 h0, eval1, if_pos hx]

end Reduce

end Expr

/-! ## Absent variables -/

section Occurs

variable {K : Type}

mutual

def Expr.occurs (v : String) : Expr K → Bool
  | .constant _ => false
  | .reference n => n == v
  | .app1 _ f0 => f0.occurs v
  | .app2 _ f0 f1 => f0.occurs v || f1.occurs v
  | .app _ args => (List.ofFn fun i => (args i).occurs v).any id
  | .ifthenelse c f1 f2 => c.occurs v || (f1.occurs v || f2.occurs v)

def Cond.occurs (v : String) : Cond K → Bool
  | .constant _ => false
  | .reference n => n == v
  | .compare _ f0 f1 => f0.occurs v || f1.occurs v
  | .not c => c.occurs v
  | .and c c' | .or c c' | .xor c c' => c.occurs v || c'.occurs v

end

/-- Every application that is differentiated has a rule. The rules of `step` and `sign`
do not look at the argument, that of `?:` not at the condition. -/
def Expr.hasRules : Expr K → Bool
  | .constant _ | .reference _ => true
  | .app1 f f0 => f = .step || f = .sign || f0.hasRules
  | .app2 _ f0 f1 => f0.hasRules && f1.hasRules
  | .app _ _ => false
  | .ifthenelse _ f1 f2 => f1.hasRules && f2.hasRules

theorem Expr.not_occurs_of_const {v : String} {f : Expr K} (h : f.const?.isSome) :
    f.occurs v = false := by
  obtain ⟨c, hc⟩ := isSome_iff_exists.mp h
  rw [const?_eq_some.mp hc]
  rfl

end Occurs

mutual

/-- The value does not depend on a variable that does not occur. -/
theorem Expr.eval_set {env : Env} {v : String} (t : ℝ) : ∀ e : Expr ℝ, e.occurs v = false →
    e.eval (env.set v t) = e.eval env
  | .constant d, _ => rfl
  | .reference n, h => by
    have hn : n ≠ v := by simpa [Expr.occurs] using h
    simp only [Expr.eval, Env.set, Function.update_of_ne hn]
  | .app1 f f0, h => by
    rw [Expr.eval, Expr.eval, Expr.eval_set t f0 h]
  | .app2 f f0 f1, h => by
    obtain ⟨h0, h1⟩ := Bool.or_eq_false_iff.mp h
    rw [Expr.eval, Expr.eval, Expr.eval_set t f0 h0, Expr.eval_set t f1 h1]
  | .app n args, h => by
    have hargs : ∀ i, (args i).occurs v = false := by simpa [Expr.occurs, List.any_eq_false] using h
    have hvalues : (fun i => (args i).eval (env.set v t)) = fun i => (args i).eval env :=
      funext fun i => Expr.eval_set t (args i) (hargs i)
    rw [Expr.eval, Expr.eval, hvalues]
    rfl
  | .ifthenelse c f1 f2, h => by
    obtain ⟨hc, h12⟩ := Bool.or_eq_false_iff.mp h
    obtain ⟨h1, h2⟩ := Bool.or_eq_false_iff.mp h12
    rw [Expr.eval, Expr.eval, Cond.eval_set t c hc, Expr.eval_set t f1 h1, Expr.eval_set t f2 h2]

theorem Cond.eval_set {env : Env} {v : String} (t : ℝ) : ∀ c : Cond ℝ, c.occurs v = false →
    c.eval (env.set v t) = c.eval env
  | .constant b, _ => rfl
  | .reference n, _ => rfl
  | .compare op f0 f1, h => by
    obtain ⟨h0, h1⟩ := Bool.or_eq_false_iff.mp h
    rw [eval, eval, Expr.eval_set t f0 h0, Expr.eval_set t f1 h1]
  | .not c, h => by
    rw [Cond.eval, Cond.eval, Cond.eval_set t c h]
  | .and c c', h | .or c c', h | .xor c c', h => by
    obtain ⟨h0, h1⟩ := Bool.or_eq_false_iff.mp h
    rw [Cond.eval, Cond.eval, Cond.eval_set t c h0, Cond.eval_set t c' h1]

end

namespace Expr

section Zero

variable {K : Type} [Field K] [DecidableEq K]

theorem isZero_zero : (Expr.constant (0 : K)).isZero := isZero_iff.mpr rfl

theorem isOne_zero : (Expr.constant (0 : K)).isOne = false := by simp [isOne, const?]

@[simp] theorem plusReduce_zero : plusReduce (.constant (0 : K)) (.constant 0) = .constant 0 := by
  simp [plusReduce, isZero_zero]

@[simp] theorem minusReduce1_zero : minusReduce1 (.constant (0 : K)) = .constant 0 := by
  simp [minusReduce1, isZero_zero]

@[simp] theorem minusReduce_zero : minusReduce (.constant (0 : K)) (.constant 0) = .constant 0 := by
  simp [minusReduce, isZero_zero]

@[simp] theorem timesReduce_zero_left (f : Expr K) : timesReduce (.constant 0) f = .constant 0 := by
  simp [timesReduce, isZero_zero]

@[simp] theorem timesReduce_zero_right (f : Expr K) :
    timesReduce f (.constant 0) = .constant 0 := by
  simp [timesReduce, isZero_zero]

@[simp] theorem overReduce_zero (f : Expr K) : overReduce (.constant 0) f = .constant 0 := by
  simp [overReduce, isZero_zero, isOne_zero]

@[simp] theorem appReduce_zero (func : Fn1) (f : Expr K) :
    appReduce func (.constant 0) f = .constant 0 := by
  simp [appReduce, isZero_zero, isOne_zero]

variable [Libm K]

theorem derive1_zero (f0 : Expr K) (f : Fn1) : derive1 f0 (.constant 0) f = .constant 0 := by
  cases f <;> simp [derive1, plusUnary, minusUnary, ln, log10, log2, logRule, sqrt, exp, sinc,
    norm, sin, cos, tan, sec, cot, cosec, abs, step, sign, arcsin, arccos, arctan, arccot, arcsec,
    arccosec, square, sinh, cosh, tanh, coth, arsinh, arcosh, artanh, arcoth, arsech, arcosech,
    limexp, vt]

theorem derive2_zero (f0 f1 : Expr K) (f : Fn2) :
    derive2 f0 f1 (.constant 0) (.constant 0) f = .constant 0 := by
  cases f <;> simp [derive2, plusBinary, minusBinary, times, overBinary, power, xhypot, const?,
    isZero_zero]

/-- **Absent variables.**  The derivative is the constant 0, as a tree. -/
theorem differentiate_of_not_occurs {v : String} : ∀ e : Expr K, e.hasRules →
    e.occurs v = false → e.differentiate v = .constant 0
  | .constant d, _, _ => rfl
  | .reference n, _, h => by
    have hn : n ≠ v := by simpa [occurs] using h
    rw [differentiate, if_neg hn]
  | .app1 f f0, hr, h => by
    by_cases hf : f = .step ∨ f = .sign
    · obtain rfl | rfl := hf <;> rfl
    · have hr0 : f0.hasRules := by
        simpa [hasRules, not_or.mp hf] using hr
      rw [differentiate, differentiate_of_not_occurs f0 hr0 h, derive1_zero]
  | .app2 f f0 f1, hr, h => by
    obtain ⟨hr0, hr1⟩ := Bool.and_eq_true_iff.mp hr
    obtain ⟨h0, h1⟩ := Bool.or_eq_false_iff.mp h
    rw [differentiate, differentiate_of_not_occurs f0 hr0 h0, differentiate_of_not_occurs f1 hr1 h1,
      derive2_zero]
  | .ifthenelse c f1 f2, hr, h => by
    obtain ⟨hr1, hr2⟩ := Bool.and_eq_true_iff.mp hr
    obtain ⟨-, h12⟩ := Bool.or_eq_false_iff.mp h
    obtain ⟨h1, h2⟩ := Bool.or_eq_false_iff.mp h12
    rw [differentiate, differentiate_of_not_occurs f1 hr1 h1, differentiate_of_not_occurs f2 hr2 h2]
    simp [ifthenelseRule, const?]

end Zero

end Expr

/-! ## The partial derivative -/

theorem Env.set_self (env : Env) (v : String) : env.set v (env.double v) = env := by simp [Env.set]

/-- `e` is defined around the environment, and `d` is its partial derivative
with respect to `v` there. -/
structure HasPartial (env : Env) (v : String) (e : Expr ℝ) (d : ℝ) : Prop where
  defined : ∀ᶠ t in 𝓝 (env.double v), (e.eval (env.set v t)).isSome
  hasDerivAt : HasDerivAt (fun t => (e.eval (env.set v t)).getD 0) d (env.double v)

section Partial

variable {env : Env} {v : String} {e f0 f1 : Expr ℝ} {d : ℝ}

theorem hasPartial_of_eventually {g : ℝ → ℝ}
    (hg : ∀ᶠ t in 𝓝 (env.double v), e.eval (env.set v t) = some (g t))
    (hd : HasDerivAt g d (env.double v)) : HasPartial env v e d where
  defined := hg.mono fun t ht => by rw [ht]; rfl
  hasDerivAt := hd.congr_of_eventuallyEq (hg.mono fun t ht => by
    show (e.eval (env.set v t)).getD 0 = g t
    rw [ht]
    rfl)

theorem HasPartial.value (h : HasPartial env v e d) :
    ∃ g : ℝ → ℝ, (∀ᶠ t in 𝓝 (env.double v), e.eval (env.set v t) = some (g t)) ∧
      HasDerivAt g d (env.double v) ∧ e.eval env = some (g (env.double v)) := by
  have hg : ∀ᶠ t in 𝓝 (env.double v),
      e.eval (env.set v t) = some ((e.eval (env.set v t)).getD 0) := by
    refine h.defined.mono fun t ht => ?_
    obtain ⟨x, hx⟩ := isSome_iff_exists.mp ht
    rw [hx]
    rfl
  refine ⟨_, hg, h.hasDerivAt, ?_⟩
  have hself := hg.self_of_nhds
  rwa [Env.set_self] at hself ⊢

theorem hasPartial_of_not_occurs (hocc : e.occurs v = false)
    (hdef : (e.eval env).isSome) : HasPartial env v e 0 := by
  obtain ⟨x, hx⟩ := isSome_iff_exists.mp hdef
  refine hasPartial_of_eventually (g := fun _ => x) ?_ (hasDerivAt_const _ _)
  exact of_forall fun t => by rw [Expr.eval_set t e hocc, hx]

theorem HasPartial.app1 {f : Fn1} {F : ℝ → ℝ} {s x : ℝ} (h : HasPartial env v f0 d)
    (hx : f0.eval env = some x) (hF : ∀ᶠ z in 𝓝 x, eval1 f z = some (F z))
    (hs : HasDerivAt F s x) : HasPartial env v (.app1 f f0) (s * d) := by
  obtain ⟨g, hg, hd, hpoint⟩ := h.value
  obtain rfl := some.inj (hpoint.symm.trans hx)
  refine hasPartial_of_eventually (g := fun t => F (g t)) ?_ (hs.comp _ hd)
  filter_upwards [hg, hd.continuousAt.eventually hF] with t ht hFt
  rw [Expr.eval_app1 ht, hFt]

end Partial

/-! ## The rules of one argument -/

/-- The rule of `f` is right at `x`: around `x` the function is defined, and
the rule multiplies its derivative there to the derivative of the argument. -/
def RuleSound (f : Fn1) (x : ℝ) : Prop :=
  ∃ (F : ℝ → ℝ) (s : ℝ), (∀ᶠ z in 𝓝 x, eval1 f z = some (F z)) ∧ HasDerivAt F s x ∧
    ∀ (env : Env) (f0 d0 : Expr ℝ) (d : ℝ), env.double "e" = Real.exp 1 →
      f0.eval env = some x → d0.eval env = some d →
      (Expr.derive1 f0 d0 f).eval env = some (s * d)

section Rules

open Qucs.Expr

variable {x : ℝ}

theorem ruleSound_plus : RuleSound .plus x := by
  refine ⟨id, 1, of_forall fun z => rfl, hasDerivAt_id x, ?_⟩
  intro env f0 d0 d _ _ hd
  rw [one_mul]
  exact hd

theorem ruleSound_minus : RuleSound .minus x := by
  refine ⟨fun z => -z, -1, of_forall fun z => rfl, hasDerivAt_neg x, ?_⟩
  intro env f0 d0 d _ _ hd
  rw [neg_one_mul]
  exact minusReduce1_eval hd

theorem ruleSound_ln (hx : 0 < x) : RuleSound .ln x := by
  refine ⟨log, x⁻¹, ?_, hasDerivAt_log hx.ne', ?_⟩
  · filter_upwards [lt_mem_nhds hx] with z hz
    exact if_pos hz
  · intro env f0 d0 d _ h0 hd
    rw [inv_mul_eq_div]
    exact overReduce_eval hd h0 hx.ne'

theorem logRule_eval {env : Env} {f0 d0 : Expr ℝ} {d base : ℝ} (he : env.double "e" = Real.exp 1)
    (hx : 0 < x) (hbase : 1 < base) (h0 : f0.eval env = some x) (hd : d0.eval env = some d) :
    (logRule base f0 d0).eval env = some (x⁻¹ / Real.log base * d) := by
  have hln : (lnReduce (.constant base)).eval env = some (log base) :=
    lnReduce_eval he rfl (zero_lt_one.trans hbase)
  rw [logRule, overReduce_eval (overReduce_eval hd h0 hx.ne') hln (log_pos hbase).ne']
  congr 1
  ring

theorem ruleSound_logarithm {f : Fn1} {base : ℝ} (hx : 0 < x) (hbase : 1 < base)
    (hf : ∀ z, 0 < z → eval1 f z = some (Real.log z / Real.log base))
    (hrule : ∀ f0 d0 : Expr ℝ, derive1 f0 d0 f = logRule base f0 d0) : RuleSound f x := by
  refine ⟨fun z => log z / log base, x⁻¹ / log base, ?_, (hasDerivAt_log hx.ne').div_const _, ?_⟩
  · filter_upwards [lt_mem_nhds hx] with z hz
    exact hf z hz
  · intro env f0 d0 d he h0 hd
    rw [hrule, logRule_eval he hx hbase h0 hd]

theorem ruleSound_log10 (hx : 0 < x) : RuleSound .log10 x :=
  ruleSound_logarithm hx (by norm_num) (fun _ hz => if_pos hz) fun _ _ => rfl

theorem ruleSound_log2 (hx : 0 < x) : RuleSound .log2 x :=
  ruleSound_logarithm hx (by norm_num) (fun _ hz => if_pos hz) fun _ _ => rfl

theorem ruleSound_sqrt (hx : 0 < x) : RuleSound .sqrt x := by
  refine ⟨sqrt, 1 / (2 * √x), ?_, hasDerivAt_sqrt hx.ne', ?_⟩
  · filter_upwards [lt_mem_nhds hx] with z hz
    exact if_pos (le_of_lt hz)
  · intro env f0 d0 d _ h0 hd
    have hhalf : (timesReduce (.constant (1 / 2)) d0).eval env = some (1 / 2 * d) :=
      timesReduce_eval rfl hd
    have hroot := sqrtReduce_eval h0 hx.le
    have hne : √x ≠ 0 := (sqrt_pos.mpr hx).ne'
    show (Expr.sqrt f0 d0).eval env = _
    rw [Expr.sqrt, overReduce_eval hhalf hroot hne]
    congr 1
    field_simp

/-- The functions whose derivative is another function `func`, up to the
factor the rule passes on. -/
theorem ruleSound_app {f : Fn1} (func : Fn1) {F F' : ℝ → ℝ} (hF : ∀ z, eval1 f z = some (F z))
    (hF' : ∀ z, eval1 func z = some (F' z)) (hderiv : ∀ z, HasDerivAt F (F' z) z)
    (hrule : ∀ f0 d0 : Expr ℝ, derive1 f0 d0 f = appReduce func d0 f0) : RuleSound f x := by
  refine ⟨F, F' x, of_forall hF, hderiv x, ?_⟩
  intro env f0 d0 d _ h0 hd
  rw [hrule, mul_comm]
  exact appReduce_eval hd h0 (hF' x)

theorem ruleSound_exp : RuleSound .exp x :=
  ruleSound_app .exp (fun _ => rfl) (fun _ => rfl) hasDerivAt_exp fun _ _ => rfl

theorem ruleSound_sin : RuleSound .sin x :=
  ruleSound_app .cos (fun _ => rfl) (fun _ => rfl) hasDerivAt_sin fun _ _ => rfl

theorem ruleSound_sinh : RuleSound .sinh x :=
  ruleSound_app .cosh (fun _ => rfl) (fun _ => rfl) hasDerivAt_sinh fun _ _ => rfl

theorem ruleSound_cosh : RuleSound .cosh x :=
  ruleSound_app .sinh (fun _ => rfl) (fun _ => rfl) hasDerivAt_cosh fun _ _ => rfl

theorem ruleSound_cos : RuleSound .cos x := by
  refine ⟨cos, -sin x, of_forall fun z => rfl, hasDerivAt_cos x, ?_⟩
  intro env f0 d0 d _ h0 hd
  have hneg := minusReduce1_eval hd
  show (Expr.cos f0 d0).eval env = _
  rw [Expr.cos, appReduce_eval hneg h0 rfl]
  congr 1
  ring

/-- `power_reduce` of an application and the constant 2 squares its value. -/
theorem powerReduce_two_eval {env : Env} {f : Fn1} {f0 : Expr ℝ} {y : ℝ}
    (h : (Expr.app1 f f0).eval env = some y) :
    (powerReduce (.app1 f f0) (.constant 2)).eval env = some (y ^ 2) := by
  rw [powerReduce_eval h rfl (by exact_mod_cast powDefined_natCast y 2) (Or.inr rfl),
    rpow_two]

theorem ruleSound_tan (hx : Real.cos x ≠ 0) : RuleSound .tan x := by
  refine ⟨tan, 1 / cos x ^ 2, ?_, hasDerivAt_tan hx, ?_⟩
  · filter_upwards [continuous_cos.continuousAt.eventually_ne hx] with z hz
    exact if_pos hz
  · intro env f0 d0 d _ h0 hd
    have hsec : (Expr.app1 .sec f0).eval env = some (1 / cos x) := by
      rw [eval_app1 h0, eval1, if_pos hx]
    show (Expr.tan f0 d0).eval env = _
    rw [Expr.tan, timesReduce_eval hd (powerReduce_two_eval hsec)]
    congr 1
    rw [div_pow, one_pow, mul_comm]

theorem ruleSound_tanh : RuleSound .tanh x := by
  have hc := (cosh_pos x).ne'
  have hderiv : HasDerivAt tanh (1 / cosh x ^ 2) x := by
    have h := (hasDerivAt_sinh x).div (hasDerivAt_cosh x) hc
    have hfun := funext tanh_eq_sinh_div_cosh
    rw [hfun]
    refine h.congr_deriv ?_
    congr 1
    have := cosh_sq x
    nlinarith [this]
  refine ⟨tanh, _, of_forall fun z => rfl, hderiv, ?_⟩
  intro env f0 d0 d _ h0 hd
  have hcosh : (Expr.app1 .cosh f0).eval env = some (cosh x) := by
    rw [eval_app1 h0]
    rfl
  show (Expr.tanh f0 d0).eval env = _
  rw [Expr.tanh, overReduce_eval hd (powerReduce_two_eval hcosh) (pow_ne_zero 2 hc)]
  congr 1
  ring

/-- The functions of one argument treated here. -/
def Fn1.elementary : Fn1 → Bool
  | .plus | .minus | .ln | .log10 | .log2 | .sqrt | .exp | .sin | .cos | .tan | .sinh | .cosh
  | .tanh => true
  | _ => false

/-- Their rules are right wherever they are defined, `sqrt` at 0 apart. -/
theorem ruleSound_of_elementary {f : Fn1} (hf : f.elementary)
    (hdef : (eval1 f x).isSome) (hsqrt : f = .sqrt → x ≠ 0) : RuleSound f x := by
  cases f with
  | plus => exact ruleSound_plus
  | minus => exact ruleSound_minus
  | ln => exact ruleSound_ln (by by_contra h; simp [eval1, h] at hdef)
  | log10 => exact ruleSound_log10 (by by_contra h; simp [eval1, h] at hdef)
  | log2 => exact ruleSound_log2 (by by_contra h; simp [eval1, h] at hdef)
  | sqrt =>
    have hnonneg : 0 ≤ x := by by_contra h; simp [eval1, h] at hdef
    exact ruleSound_sqrt (lt_of_le_of_ne hnonneg (hsqrt rfl).symm)
  | exp => exact ruleSound_exp
  | sin => exact ruleSound_sin
  | cos => exact ruleSound_cos
  | tan => exact ruleSound_tan (by by_contra h; simp [eval1, h] at hdef)
  | sinh => exact ruleSound_sinh
  | cosh => exact ruleSound_cosh
  | tanh => exact ruleSound_tanh
  | _ => exact absurd hf Bool.false_ne_true

end Rules

/-! ## The rules of two arguments -/

def Fn2.elementary : Fn2 → Bool
  | .hypot => false
  | _ => true

/-- Their values, where they are defined. -/
noncomputable def Fn2.total : Fn2 → ℝ → ℝ → ℝ
  | .plus, x, y => x + y
  | .minus, x, y => x - y
  | .times, x, y => x * y
  | .div, x, y => x / y
  | .power, x, y => x ^ y
  | .hypot, x, y => √(x * x + y * y)

theorem eval2_total {f : Fn2} {x y : ℝ} (h : (eval2 f x y).isSome) :
    eval2 f x y = some (f.total x y) := by
  cases f with
  | plus => rfl
  | minus => rfl
  | times => rfl
  | div =>
    have hy : y ≠ 0 := by by_contra hy; simp [eval2, hy] at h
    exact if_pos hy
  | power =>
    have hxy : PowDefined x y := by by_contra hxy; simp [eval2, hxy] at h
    exact if_pos hxy
  | hypot => rfl

section Rules2

open Qucs.Expr

variable {env : Env} {v : String} {f0 f1 d0 d1 : Expr ℝ} {x y d d' : ℝ}

theorem hasPartial_app2 {f : Fn2} {g g' : ℝ → ℝ}
    (hg : ∀ᶠ t in 𝓝 (env.double v), f0.eval (env.set v t) = some (g t))
    (hg' : ∀ᶠ t in 𝓝 (env.double v), f1.eval (env.set v t) = some (g' t))
    (hdef : ∀ᶠ t in 𝓝 (env.double v), ((Expr.app2 f f0 f1).eval (env.set v t)).isSome)
    (hd : HasDerivAt (fun t => f.total (g t) (g' t)) d (env.double v)) :
    HasPartial env v (.app2 f f0 f1) d := by
  refine hasPartial_of_eventually ?_ hd
  filter_upwards [hg, hg', hdef] with t ht ht' htdef
  rw [eval_app2 ht ht'] at htdef ⊢
  exact eval2_total htdef

theorem plusBinary_eval (h0 : d0.eval env = some d) (h1 : d1.eval env = some d') :
    (plusBinary d0 d1).eval env = some (d + d') := by
  unfold plusBinary
  split
  · rw [eval_app2 h0 h1]; rfl
  · exact plusReduce_eval h0 h1

theorem minusBinary_eval (h0 : d0.eval env = some d) (h1 : d1.eval env = some d') :
    (minusBinary d0 d1).eval env = some (d - d') := by
  unfold minusBinary
  split
  · rw [eval_app2 h0 h1]; rfl
  · exact minusReduce_eval h0 h1

/-- An application in which the variable occurs has no two constant
arguments. -/
theorem not_both_const (hocc : (f0.occurs v || f1.occurs v)) :
    (f0.const?.isSome && f1.const?.isSome) = false := by
  cases h0 : f0.const?.isSome with
  | false => rfl
  | true =>
    cases h1 : f1.const?.isSome with
    | false => rfl
    | true =>
      rw [not_occurs_of_const h0, not_occurs_of_const h1] at hocc
      exact absurd hocc Bool.false_ne_true

section Values

variable (hocc : (f0.occurs v || f1.occurs v)) (hx : f0.eval env = some x)
  (hy : f1.eval env = some y) (h0 : d0.eval env = some d)

include hocc hx hy h0

theorem times_eval (h1 : d1.eval env = some d') :
    (times f0 f1 d0 d1).eval env = some (x * d' + y * d) := by
  rw [times, not_both_const hocc]
  exact plusReduce_eval (timesReduce_eval hx h1) (timesReduce_eval hy h0)

theorem over_eval (h1 : d1.eval env = some d') (hne : y ≠ 0) :
    (overBinary f0 f1 d0 d1).eval env = some ((y * d - x * d') / (y * y)) := by
  rw [overBinary, not_both_const hocc]
  exact overReduce_eval (minusReduce_eval (timesReduce_eval hy h0) (timesReduce_eval hx h1))
    (sqrReduce_eval hy) (mul_ne_zero hne hne)

/-- The power rule, for an exponent whose derivative is the constant 0. -/
theorem power_eval_zero (h1 : d1.isZero) (hpow : PowDefined x (y - 1))
    (hne : x ≠ 0 ∨ f0.const? = none) :
    (power f0 f1 d0 d1).eval env = some (y * x ^ (y - 1) * d) := by
  have hexp : (minusReduce f1 (.constant 1)).eval env = some (y - 1) := minusReduce_eval hy rfl
  rw [power, not_both_const hocc, if_neg Bool.false_ne_true, if_pos h1]
  exact timesReduce_eval (timesReduce_eval hy (powerReduce_eval hx hexp hpow hne)) h0

theorem power_eval_general (he : env.double "e" = Real.exp 1) (h1 : d1.eval env = some d')
    (hz : d1.isZero = false) (hpos : 0 < x) :
    (power f0 f1 d0 d1).eval env = some (x ^ y * (d' * Real.log x + y * d / x)) := by
  rw [power, not_both_const hocc, if_neg Bool.false_ne_true, hz, if_neg Bool.false_ne_true]
  exact timesReduce_eval (powerReduce_eval hx hy (Or.inl hpos) (Or.inl hpos.ne'))
    (plusReduce_eval (timesReduce_eval h1 (lnReduce_eval he hx hpos))
      (overReduce_eval (timesReduce_eval hy h0) hx hpos.ne'))

end Values

theorem power_sound_pos {g g' : ℝ → ℝ} (hocc : (f0.occurs v || f1.occurs v))
    (he : env.double "e" = Real.exp 1) (hx : f0.eval env = some (g (env.double v)))
    (hy : f1.eval env = some (g' (env.double v))) (h0 : d0.eval env = some d)
    (h1 : d1.eval env = some d') (hd : HasDerivAt g d (env.double v))
    (hd' : HasDerivAt g' d' (env.double v)) (hpos : 0 < g (env.double v)) :
    ∃ s, (power f0 f1 d0 d1).eval env = some s ∧
      HasDerivAt (fun t => g t ^ g' t) s (env.double v) := by
  have hderiv := hd.rpow hd' hpos
  cases hz : d1.isZero with
  | true =>
    refine ⟨_, power_eval_zero hocc hx hy h0 hz (Or.inl hpos) (Or.inl hpos.ne'), ?_⟩
    refine hderiv.congr_deriv ?_
    rw [eval_isZero hz h1]
    ring
  | false =>
    refine ⟨_, power_eval_general hocc hx hy h0 he h1 hz hpos, ?_⟩
    refine hderiv.congr_deriv ?_
    rw [rpow_sub_one hpos.ne']
    field_simp
    ring

theorem power_sound_const {g : ℝ → ℝ} (hocc : f0.occurs v)
    (hx : f0.eval env = some (g (env.double v))) (hy : f1.eval env = some y)
    (h0 : d0.eval env = some d) (hd : HasDerivAt g d (env.double v))
    (hpow : PowDefined (g (env.double v)) y) (hreg : g (env.double v) ≠ 0 ∨ 1 ≤ y) :
    ∃ s, (power f0 f1 d0 (.constant 0)).eval env = some s ∧
      HasDerivAt (fun t => g t ^ y) s (env.double v) := by
  have hpow' : PowDefined (g (env.double v)) (y - 1) := by
    rcases hpow with hpos | ⟨hzero, _⟩ | ⟨hneg, n, hn⟩
    · exact Or.inl hpos
    · have hle := hreg.resolve_left (not_not.mpr hzero)
      exact Or.inr (Or.inl ⟨hzero, by linarith⟩)
    · exact Or.inr (Or.inr ⟨hneg, n - 1, by rw [hn]; push_cast; ring⟩)
  have hconst : f0.const? = none := by
    cases h : f0.const? with
    | none => rfl
    | some c =>
      rw [not_occurs_of_const (by rw [h]; rfl)] at hocc
      exact absurd hocc Bool.false_ne_true
  have hocc' : (f0.occurs v || f1.occurs v) := by rw [hocc]; rfl
  refine ⟨_, power_eval_zero hocc' hx hy h0 isZero_zero hpow' (Or.inr hconst), ?_⟩
  refine (hd.rpow_const hreg).congr_deriv ?_
  ring

end Rules2

/-! ## Correctness -/

/-- All functions in the expression are elementary. -/
def Expr.elementary {K : Type} : Expr K → Bool
  | .constant _ | .reference _ => true
  | .app1 f f0 => f.elementary && f0.elementary
  | .app2 f f0 f1 => f.elementary && (f0.elementary && f1.elementary)
  | .app _ _ => false
  | .ifthenelse _ f1 f2 => f1.elementary && f2.elementary

theorem Expr.hasRules_of_elementary {K : Type} : ∀ {e : Expr K}, e.elementary →
    e.hasRules
  | .constant _, _ | .reference _, _ => rfl
  | .app1 f f0, h => by
    rw [hasRules, hasRules_of_elementary (Bool.and_eq_true_iff.mp h).2, Bool.or_true]
  | .app2 f f0 f1, h => by
    obtain ⟨h0, h1⟩ := Bool.and_eq_true_iff.mp (Bool.and_eq_true_iff.mp h).2
    rw [hasRules, hasRules_of_elementary h0, hasRules_of_elementary h1]
    rfl
  | .ifthenelse c f1 f2, h => by
    obtain ⟨h1, h2⟩ := Bool.and_eq_true_iff.mp h
    rw [hasRules, hasRules_of_elementary h1, hasRules_of_elementary h2]
    rfl

/-- The exceptional points are avoided: no root of 0, no power of a base that
is not positive unless the power rule applies to it, and no condition that
changes its value. -/
def Expr.Regular (env : Env) (v : String) : Expr ℝ → Prop
  | .constant _ | .reference _ | .app _ _ => True
  | .app1 f f0 => f0.Regular env v ∧ (f = .sqrt → f0.occurs v → f0.eval env ≠ some 0)
  | .app2 f f0 f1 => f0.Regular env v ∧ f1.Regular env v ∧
      (f = .power → (∃ x, f0.eval env = some x ∧ 0 < x) ∨
        (f1.occurs v = false ∧ (f0.occurs v →
          f0.eval env ≠ some 0 ∨ ∃ y, f1.eval env = some y ∧ 1 ≤ y)))
  | .ifthenelse c f1 f2 => f1.Regular env v ∧ f2.Regular env v ∧
      ∀ᶠ t in 𝓝 (env.double v), c.eval (env.set v t) = c.eval env

section Correct

variable {env : Env} {v : String}

/-- The expression is defined around the environment. -/
def Expr.DefinedAround (env : Env) (v : String) (e : Expr ℝ) : Prop :=
  ∀ᶠ t in 𝓝 (env.double v), (e.eval (env.set v t)).isSome

theorem Expr.DefinedAround.here {e : Expr ℝ} (h : e.DefinedAround env v) :
    ∃ x, e.eval env = some x := by
  have hself := h.self_of_nhds
  rw [Env.set_self] at hself
  exact isSome_iff_exists.mp hself

theorem Expr.DefinedAround.app1 {f : Fn1} {f0 : Expr ℝ}
    (h : (Expr.app1 f f0).DefinedAround env v) : f0.DefinedAround env v :=
  h.mono fun _ ht => isSome_of_isSome_bind ht

theorem Expr.DefinedAround.app2 {f : Fn2} {f0 f1 : Expr ℝ}
    (h : (Expr.app2 f f0 f1).DefinedAround env v) :
    f0.DefinedAround env v ∧ f1.DefinedAround env v := by
  refine ⟨h.mono fun t ht => isSome_of_isSome_bind ht, h.mono fun t ht => ?_⟩
  obtain ⟨z, hz⟩ := isSome_iff_exists.mp ht
  obtain ⟨x, -, hy⟩ := bind_eq_some_iff.mp hz
  obtain ⟨y, hy, -⟩ := bind_eq_some_iff.mp hy
  rw [hy]
  rfl

theorem Expr.DefinedAround.ifthenelse {c : Cond ℝ} {f1 f2 : Expr ℝ}
    (h : (Expr.ifthenelse c f1 f2).DefinedAround env v) :
    (∃ b, c.eval env = some b) ∧ f1.DefinedAround env v ∧ f2.DefinedAround env v := by
  have hall : ∀ᶠ t in 𝓝 (env.double v), (c.eval (env.set v t)).isSome ∧
      (f1.eval (env.set v t)).isSome ∧ (f2.eval (env.set v t)).isSome := by
    refine h.mono fun t ht => ?_
    obtain ⟨z, hz⟩ := isSome_iff_exists.mp ht
    obtain ⟨b, hb, hz⟩ := bind_eq_some_iff.mp hz
    obtain ⟨x, hx, hz⟩ := bind_eq_some_iff.mp hz
    obtain ⟨y, hy, -⟩ := map_eq_some_iff.mp hz
    rw [hb, hx, hy]
    exact ⟨rfl, rfl, rfl⟩
  refine ⟨?_, hall.mono fun t ht => ht.2.1, hall.mono fun t ht => ht.2.2⟩
  have hself := hall.self_of_nhds.1
  rw [Env.set_self] at hself
  exact isSome_iff_exists.mp hself

theorem differentiate_absent {e : Expr ℝ} (helem : e.elementary)
    (hocc : e.occurs v = false) (hdef : e.DefinedAround env v) :
    ∃ d, HasPartial env v e d ∧ (e.differentiate v).eval env = some d := by
  obtain ⟨x, hx⟩ := hdef.here
  refine ⟨0, hasPartial_of_not_occurs hocc (by rw [hx]; rfl), ?_⟩
  rw [Expr.differentiate_of_not_occurs e (Expr.hasRules_of_elementary helem) hocc]
  rfl

/-- The rule of `?:`, for a condition that keeps its value. -/
theorem ifthenelseRule_eval {c : Cond ℝ} {d1 d2 : Expr ℝ} {b : Bool} {x y : ℝ}
    (hc : c.eval env = some b) (h1 : d1.eval env = some x) (h2 : d2.eval env = some y) :
    (Expr.ifthenelseRule c d1 d2).eval env = some (if b then x else y) := by
  have hite : (Expr.ifthenelse c d1 d2).eval env = some (if b then x else y) := by
    rw [Expr.eval, hc, h1, h2]
    rfl
  unfold Expr.ifthenelseRule
  split
  · next a a' ha ha' =>
      split
      · next heq =>
          rw [Expr.eval_const? ha h1, Expr.eval_const? ha' h2, heq, ite_self]
          rfl
      · exact hite
  · exact hite

theorem hasPartial_ifthenelse {c : Cond ℝ} {f1 f2 : Expr ℝ} {b : Bool} {d d' : ℝ}
    (hb : c.eval env = some b) (hc : ∀ᶠ t in 𝓝 (env.double v), c.eval (env.set v t) = c.eval env)
    (h1 : HasPartial env v f1 d) (h2 : HasPartial env v f2 d') :
    HasPartial env v (.ifthenelse c f1 f2) (if b then d else d') := by
  obtain ⟨g, hg, hd, -⟩ := h1.value
  obtain ⟨g', hg', hd', -⟩ := h2.value
  refine hasPartial_of_eventually (g := fun t => if b then g t else g' t) ?_ ?_
  · filter_upwards [hc, hg, hg'] with t ht htg htg'
    rw [Expr.eval, ht, hb, htg, htg']
    rfl
  · cases b with
    | true => exact hd
    | false => exact hd'

open Qucs.Expr in
theorem derive2_sound {f : Fn2} {f0 f1 : Expr ℝ} {d d' : ℝ} (hf : f.elementary)
    (helem1 : f1.elementary)
    (he : env.double "e" = Real.exp 1) (hocc : (f0.occurs v || f1.occurs v))
    (hdef : (Expr.app2 f f0 f1).DefinedAround env v) (hreg : (Expr.app2 f f0 f1).Regular env v)
    (h0 : HasPartial env v f0 d) (h1 : HasPartial env v f1 d')
    (he0 : (f0.differentiate v).eval env = some d) (he1 : (f1.differentiate v).eval env = some d') :
    ∃ s, HasPartial env v (.app2 f f0 f1) s ∧
      ((Expr.app2 f f0 f1).differentiate v).eval env = some s := by
  obtain ⟨g, hg, hd, hx⟩ := h0.value
  obtain ⟨g', hg', hd', hy⟩ := h1.value
  have hhere : (eval2 f (g (env.double v)) (g' (env.double v))).isSome := by
    obtain ⟨z, hz⟩ := hdef.here
    rw [eval_app2 hx hy] at hz
    rw [hz]
    rfl
  have hwrap : ∀ s, (derive2 f0 f1 (f0.differentiate v) (f1.differentiate v) f).eval env = some s →
      HasDerivAt (fun t => f.total (g t) (g' t)) s (env.double v) →
      ∃ s, HasPartial env v (.app2 f f0 f1) s ∧
        ((Expr.app2 f f0 f1).differentiate v).eval env = some s :=
    fun s hs hderiv => ⟨s, hasPartial_app2 hg hg' hdef hderiv, hs⟩
  cases f with
  | plus => exact hwrap _ (plusBinary_eval he0 he1) (hd.add hd')
  | minus => exact hwrap _ (minusBinary_eval he0 he1) (hd.sub hd')
  | times =>
    refine hwrap _ (times_eval hocc hx hy he0 he1) ((hd.mul hd').congr_deriv ?_)
    ring
  | div =>
    have hne : g' (env.double v) ≠ 0 := by by_contra h; simp [eval2, h] at hhere
    refine hwrap _ (over_eval hocc hx hy he0 he1 hne) ((hd.div hd' hne).congr_deriv ?_)
    rw [sq]
    ring
  | power =>
    have hpow : PowDefined (g (env.double v)) (g' (env.double v)) := by
      by_contra h
      simp [eval2, h] at hhere
    rcases hreg.2.2 rfl with ⟨x, hx', hpos⟩ | ⟨hno, hcases⟩
    · obtain rfl := some.inj (hx.symm.trans hx')
      obtain ⟨s, hs, hderiv⟩ := power_sound_pos hocc he hx hy he0 he1 hd hd' hpos
      exact hwrap s hs hderiv
    · have hocc0 : f0.occurs v := by rwa [hno, Bool.or_false] at hocc
      have hconst :=
        hg'.mono fun t ht => by
          rw [eval_set t f1 hno, hy] at ht
          exact (some.inj ht).symm
      have hside : g (env.double v) ≠ 0 ∨ 1 ≤ g' (env.double v) := by
        cases hcases hocc0 with
        | inl h => exact Or.inl fun h' => h (by rw [hx, h'])
        | inr h =>
          obtain ⟨y, hy', hle⟩ := h
          exact Or.inr (by rwa [some.inj (hy.symm.trans hy')])
      obtain ⟨s, hs, hderiv⟩ := power_sound_const hocc0 hx hy he0 hd hpow hside
      refine hwrap s ?_ (hderiv.congr_of_eventuallyEq ?_)
      · rw [differentiate_of_not_occurs f1 (hasRules_of_elementary helem1) hno]
        exact hs
      · filter_upwards [hconst] with t ht
        show g t ^ g' t = g t ^ g' (env.double v)
        rw [ht]
  | hypot => exact absurd hf Bool.false_ne_true

end Correct

/-- **Correctness of the differentiation.**  The expression is built from the
elementary functions and defined around the environment, which binds `e` to
Euler's number and avoids the exceptional points. Then the expression has a
partial derivative there, and the derivative tree evaluates to it. -/
theorem differentiate_eval {env : Env} {v : String} (he : env.double "e" = Real.exp 1) :
    ∀ e : Expr ℝ, e.elementary → e.DefinedAround env v → e.Regular env v →
      ∃ d, HasPartial env v e d ∧ (e.differentiate v).eval env = some d
  | .constant c, helem, hdef, _ => differentiate_absent helem rfl hdef
  | .reference n, helem, hdef, _ => by
    by_cases hn : n = v
    · subst hn
      refine ⟨1, hasPartial_of_eventually ?_ (hasDerivAt_id _), ?_⟩
      · exact of_forall fun t => by simp [Expr.eval, Env.set]
      · rw [Expr.differentiate, if_pos rfl]
        rfl
    · exact differentiate_absent helem (by simpa [Expr.occurs] using hn) hdef
  | .app1 f f0, helem, hdef, hreg => by
    obtain ⟨hf, helem0⟩ := Bool.and_eq_true_iff.mp helem
    cases hocc : f0.occurs v with
    | false => exact differentiate_absent helem hocc hdef
    | true =>
      obtain ⟨d, h0, he0⟩ := differentiate_eval he f0 helem0 hdef.app1 hreg.1
      obtain ⟨x, hx⟩ := hdef.app1.here
      have hhere : (eval1 f x).isSome := by
        obtain ⟨z, hz⟩ := hdef.here
        rw [Expr.eval_app1 hx] at hz
        rw [hz]
        rfl
      obtain ⟨F, s, hF, hs, hrule⟩ := ruleSound_of_elementary hf hhere
        fun hsqrt h => hreg.2 hsqrt hocc (by rw [hx, h])
      exact ⟨s * d, h0.app1 hx hF hs, hrule env f0 _ d he hx he0⟩
  | .app2 f f0 f1, helem, hdef, hreg => by
    obtain ⟨hf, helem01⟩ := Bool.and_eq_true_iff.mp helem
    obtain ⟨helem0, helem1⟩ := Bool.and_eq_true_iff.mp helem01
    cases hocc : f0.occurs v || f1.occurs v with
    | false => exact differentiate_absent (e := .app2 f f0 f1) helem hocc hdef
    | true =>
      obtain ⟨d, h0, he0⟩ := differentiate_eval he f0 helem0 hdef.app2.1 hreg.1
      obtain ⟨d', h1, he1⟩ := differentiate_eval he f1 helem1 hdef.app2.2 hreg.2.1
      exact derive2_sound hf helem1 he hocc hdef hreg h0 h1 he0 he1
  | .ifthenelse c f1 f2, helem, hdef, hreg => by
    obtain ⟨helem1, helem2⟩ := Bool.and_eq_true_iff.mp helem
    obtain ⟨⟨b, hb⟩, hdef1, hdef2⟩ := hdef.ifthenelse
    obtain ⟨d, h1, he1⟩ := differentiate_eval he f1 helem1 hdef1 hreg.1
    obtain ⟨d', h2, he2⟩ := differentiate_eval he f2 helem2 hdef2 hreg.2.1
    exact ⟨_, hasPartial_ifthenelse hb hreg.2.2 h1 h2, ifthenelseRule_eval hb he1 he2⟩

/-- The environment in which `e` is Euler's number and every other variable
is `x`. -/
noncomputable def envAt (x : ℝ) : Env where
  double n := if n = "e" then Real.exp 1 else x
  boolean _ := false
  function _ _ := none

/-- `x ^ n`. -/
def xPower (n : ℝ) : Expr ℝ := .app2 .power (.reference "x") (.constant n)

theorem xPower_eval (x t : ℝ) (n : ℕ) : (xPower n).eval ((envAt x).set "x" t) = some (t ^ n) := by
  have hx : (Expr.reference "x").eval ((envAt x).set "x" t) = some t := by simp [Expr.eval, Env.set]
  rw [xPower, Expr.eval_app2 hx rfl, eval2, if_pos (powDefined_natCast t n), rpow_natCast]

/-- The derivative of `x ^ 2` at `-1`, where the base is negative. -/
theorem differentiate_eval_square :
    ∃ d, HasPartial (envAt (-1)) "x" (xPower (2 : ℕ)) d ∧
      ((xPower (2 : ℕ)).differentiate "x").eval (envAt (-1)) = some d := by
  refine differentiate_eval (by simp [envAt]) _ rfl ?_ ?_
  · exact of_forall fun t => by rw [xPower_eval]; rfl
  · refine ⟨trivial, trivial, fun _ => Or.inr ⟨rfl, fun _ => Or.inl ?_⟩⟩
    simp [Expr.eval, envAt]

/-- The subexpressions of double type, the expression itself included. -/
def Expr.subexpressions {K : Type} : Expr K → List (Expr K)
  | .constant d => [.constant d]
  | .reference n => [.reference n]
  | .app1 f f0 => .app1 f f0 :: f0.subexpressions
  | .app2 f f0 f1 => .app2 f f0 f1 :: (f0.subexpressions ++ f1.subexpressions)
  | .app n args => .app n args :: (List.ofFn fun i => (args i).subexpressions).flatten
  | .ifthenelse c f1 f2 => .ifthenelse c f1 f2 :: (f1.subexpressions ++ f2.subexpressions)

/-- `sqrt (x ^ 4)`. -/
def rootOfFourthPower : Expr ℝ := .app1 .sqrt (xPower (4 : ℕ))

theorem rootOfFourthPower_eval (x t : ℝ) :
    rootOfFourthPower.eval ((envAt x).set "x" t) = some (t ^ 2) := by
  have hnonneg : (0 : ℝ) ≤ t ^ 4 := by positivity
  have hroot : √(t ^ 4) = t ^ 2 := by
    rw [show t ^ 4 = (t ^ 2) ^ 2 by ring]
    exact sqrt_sq (sq_nonneg t)
  rw [rootOfFourthPower, Expr.eval_app1 (xPower_eval x t 4), eval1, if_pos hnonneg, hroot]

/-- Every subexpression of `sqrt (x ^ 4)` is defined and differentiable at 0,
but the derivative tree, a quotient by `sqrt (x ^ 4)`, has no value there. -/
theorem differentiate_rootOfFourthPower :
    ¬ ((∀ s ∈ rootOfFourthPower.subexpressions, ∃ d, HasPartial (envAt 0) "x" s d) →
      ∃ d, HasPartial (envAt 0) "x" rootOfFourthPower d ∧
        (rootOfFourthPower.differentiate "x").eval (envAt 0) = some d) := by
  have hpartial : ∀ s ∈ rootOfFourthPower.subexpressions, ∃ d, HasPartial (envAt 0) "x" s d := by
    intro s hs
    simp only [rootOfFourthPower, xPower, Expr.subexpressions, mem_cons, cons_append,
      nil_append, not_mem_nil, or_false] at hs
    rcases hs with rfl | rfl | rfl | rfl
    · exact ⟨_, hasPartial_of_eventually (of_forall (rootOfFourthPower_eval 0))
        (hasDerivAt_pow 2 _)⟩
    · exact ⟨_, hasPartial_of_eventually (of_forall fun t => xPower_eval 0 t 4)
        (hasDerivAt_pow 4 _)⟩
    · refine ⟨1, hasPartial_of_eventually (of_forall fun t => ?_)
        (hasDerivAt_id _)⟩
      simp [Expr.eval, Env.set]
    · exact ⟨0, hasPartial_of_not_occurs rfl rfl⟩
  intro h
  obtain ⟨d, -, hd⟩ := h hpartial
  have htree : rootOfFourthPower.differentiate "x"
      = .app2 .div (.app2 .times (.constant (1 / 2))
          (.app2 .times (.constant 4) (xPower 3))) rootOfFourthPower := by
    norm_num [rootOfFourthPower, xPower, Expr.differentiate, Expr.derive1, Expr.derive2,
      Expr.power, Expr.sqrt, Expr.minusReduce, Expr.powerReduce, Expr.timesReduce,
      Expr.sqrtReduce, Expr.overReduce, Expr.overReduceAdv, Expr.isZero, Expr.isOne, Expr.isNeg,
      Expr.const?]
  have hzero : rootOfFourthPower.eval (envAt 0) = some 0 := by
    have h0 := rootOfFourthPower_eval 0 ((envAt 0).double "x")
    rw [Env.set_self] at h0
    rw [h0]
    simp [envAt]
  rw [htree, Expr.eval] at hd
  obtain ⟨x, -, hd⟩ := bind_eq_some_iff.mp hd
  obtain ⟨y, hy, hd⟩ := bind_eq_some_iff.mp hd
  obtain rfl := some.inj (hzero.symm.trans hy)
  simp [eval2] at hd

end Qucs
