/-
# Matrices among the vectors of a dataset

`qucs-core/src/equation.cpp`, `matvec.cpp`. The vectors `S[1,1]`,
`S[1,2]`, ... of a dataset are the entries of a matrix vector `S`. The equation
solver looks for such names, marks the vectors that belong together and puts
them into one matrix vector.

* vector::requested: the second component in `Solver.vectors`
* solver::findMatrixVectors: `scan`, `collect`, `findPass`, `findMatrixVectors`
* matvec::getMatrixVector: `getMatrixVectorSize`, `getMatrixVector`
* solver::addEquationData: the list `Solver.equations`

The loop over the dataset is meant to go on until nothing more is found, one
matrix in each pass. But a pass that found one clears the candidate before the
test of the loop: there is always exactly one pass.
`findMatrixVectors_assembled_iff` says what the dataset must then look like.

`getMatrixVector` finds a matrix vector by its name, and takes all names that begin
with it for its entries: `S2[1,1]` is one of `S` (`getMatrixVector_longerName`).
`getMatrixVector_own_iff` says when this does no harm.
-/
import Mathlib

namespace Qucs.MatrixVectors

open List
open Nat (toDigits)
open Option (bind_eq_bind bind_some some)

/-! ## Names of matrix entries -/

/-- The text `n[r,c]`, with indices from one. -/
def createMatrixString (n : String) (r c : ℕ) : String :=
  n ++ "[" ++ toString (r + 1) ++ "," ++ toString (c + 1) ++ "]"

def isSpace (ch : Char) : Bool := ch ∈ [' ', '\t', '\n', '\r', Char.ofNat 11, Char.ofNat 12]

/-- A sign, and what follows it. -/
def sign (s : List Char) : ℤ × List Char :=
  match s with
  | '-' :: s => (-1, s)
  | '+' :: s => (1, s)
  | s => (1, s)

/-- The number at the start of the text: white space, a sign, and digits. A number
that is no `int` is undefined in C; here it wraps around. -/
def atoi (s : List Char) : ℤ :=
  let (sign, s) := sign (s.dropWhile isSpace)
  (sign * Nat.ofDigitChars 10 (s.takeWhile Char.isDigit) 0).bmod (2 ^ 32)

/-- The rest of the text from the first `ch` on. -/
def strchr (s : List Char) (ch : Char) : Option (List Char) :=
  match s.dropWhile (· ≠ ch) with
  | [] => none
  | p => some p

def isMatrixVector (n : String) : Option (String × ℤ × ℤ) := do
  let p ← strchr n.toList '['
  let r := atoi p.tail - 1
  let p ← strchr p ','
  let c := atoi p.tail - 1
  let p ← strchr p ']'
  let name := n.toList.takeWhile (· ≠ '[')
  if p.tail = [] ∧ 0 < name.length then some (String.ofList name, r, c) else none

/-! ## Matrix vectors -/

structure Vector (V : Type) where
  name : String
  values : List V
  dependencies : Option (List String)

structure MatVec (V : Type) where
  name : String
  size : ℕ
  rows : ℤ
  cols : ℤ
  entry : ℤ → ℤ → List V

section Model

variable {V : Type}

/-- All entries are zero. -/
def MatVec.new [Zero V] (name : String) (size : ℕ) (rows cols : ℤ) : MatVec V :=
  ⟨name, size, rows, cols, fun _ _ => List.replicate size 0⟩

/-- The function asserts that the vector fits. -/
def MatVec.set (m : MatVec V) (v : Vector V) (r c : ℤ) : Option (MatVec V) :=
  if v.values.length = m.size ∧ 0 ≤ r ∧ r < m.rows ∧ 0 ≤ c ∧ c < m.cols then
    some { m with entry := fun i j => if i = r ∧ j = c then v.values else m.entry i j }
  else none

structure Candidate where
  name : String
  r : ℤ
  c : ℤ
  s : ℕ
  deps : Option (List String)

/-- The vectors with their 'found' flags, and the equations, each with its data
dependencies. -/
structure Solver (V : Type) where
  vectors : List (Vector V × ℤ)
  equations : List (MatVec V × List String)

def scanOne (n : ℤ) (cand : Option Candidate) (v : Vector V) (requested : ℤ) :
    ℤ × Option Candidate :=
  if requested ≠ 0 then (requested, cand)
  else match isMatrixVector v.name with
    | none => (requested, cand)
    | some (p, a, b) =>
      match cand with
      | some k =>
        if p = k.name ∧ k.s = v.values.length then
          (n, some { k with r := if a > k.r then a else k.r, c := if b > k.c then b else k.c })
        else (requested, cand)
      | none => (n, some ⟨p, a, b, v.values.length, v.dependencies⟩)

/-- The vectors of the candidate get the number of the pass. -/
def scan (n : ℤ) : Option Candidate → List (Vector V × ℤ) →
    List (Vector V × ℤ) × Option Candidate
  | cand, [] => ([], cand)
  | cand, (v, requested) :: vs =>
    let (requested, cand) := scanOne n cand v requested
    let (vs, cand) := scan n cand vs
    ((v, requested) :: vs, cand)

/-- The vectors with the number of the pass are put into the matrix. -/
def collect (n : ℤ) : MatVec V → List (Vector V × ℤ) →
    Option (MatVec V × List (Vector V × ℤ))
  | mv, [] => some (mv, [])
  | mv, (v, requested) :: vs =>
    if requested = n then do
      let (_, a, b) ← isMatrixVector v.name
      let mv ← mv.set v a b
      let (mv, vs) ← collect n mv vs
      return (mv, (v, -1) :: vs)
    else do
      let (mv, vs) ← collect n mv vs
      return (mv, (v, requested) :: vs)

/-- One pass, with the candidate as it is at the test of the loop. -/
def findPass [Zero V] (n : ℤ) (s : Solver V) : Option (Solver V × Option Candidate) :=
  let (vs, cand) := scan n none s.vectors
  match cand with
  | some k => do
      let (mv, vs) ← collect n (.new k.name k.s (k.r + 1) (k.c + 1)) vs
      -- the candidate is freed and set to NULL
      return (⟨vs, (mv, k.deps.getD [k.name]) :: s.equations⟩, none)
  | none => some (⟨vs, s.equations⟩, none)

def findLoop [Zero V] : ℕ → ℤ → Solver V → Option (Solver V)
  | 0, _, _ => none
  | fuel + 1, n, s => do
      let (s, cand) ← findPass n s
      if cand.isSome then findLoop fuel (n + 1) s else some s

/-- All passes, if no more than `fuel`. -/
def findMatrixVectors [Zero V] (fuel : ℕ) (vectors : List (Vector V)) : Option (Solver V) :=
  findLoop fuel 1 ⟨vectors.map (·, 0), []⟩

end Model

/-! ## What is meant -/

section Statement

variable {V : Type}

/-- The vector is named `base[r,c]`, with positive indices of type `int`. -/
structure Named (v : Vector V) (base : String) (r c : ℕ) : Prop where
  name : v.name = createMatrixString base r c
  base : base ≠ "" ∧ '[' ∉ base.toList
  int : r + 1 < 2 ^ 31 ∧ c + 1 < 2 ^ 31

def IsNamed (v : Vector V) : Prop := ∃ base r c, Named v base r c

/-- All matrix vectors are assembled, one for each name and length, and nothing else
is. -/
structure Assembled (vectors : List (Vector V)) (s : Solver V) : Prop where
  same : s.vectors.map Prod.fst = vectors
  one : ∀ v ∈ vectors, ∀ base r c, Named v base r c →
    ∃ mv deps, s.equations.filter (fun e => e.1.name = base ∧ e.1.size = v.values.length) =
      [(mv, deps)] ∧ (r : ℤ) < mv.rows ∧ (c : ℤ) < mv.cols ∧ mv.entry r c = v.values
  only : ∀ e ∈ s.equations, ∃ v ∈ vectors, ∃ r c, Named v e.1.name r c ∧ v.values.length = e.1.size
  plain : ∀ p ∈ s.vectors, ¬IsNamed p.1 → p.2 = 0

/-- The two vectors are taken for entries of one matrix vector. -/
def SameMatrix (v w : Vector V) : Prop :=
  v.values.length = w.values.length ∧ ∃ base a b a' b', isMatrixVector v.name = some (base, a, b) ∧
    isMatrixVector w.name = some (base, a', b')

/-- The vectors named like matrix entries are those the solver takes for entries of
the first matrix vector in the list, and no entry is given twice. -/
def OneMatrix (vectors : List (Vector V)) : Prop :=
  (∀ v, vectors.find? (fun v => (isMatrixVector v.name).isSome) = some v →
    ∀ w ∈ vectors, IsNamed w ↔ SameMatrix v w) ∧
  ∀ v ∈ vectors, ∀ w ∈ vectors, IsNamed v → v.name = w.name →
    v.values.length = w.values.length → v.values = w.values

end Statement

/-! ## Reading a name back -/

section Names

theorem strchr_append {l rest : List Char} {ch : Char} (h : ch ∉ l) :
    strchr (l ++ ch :: rest) ch = some (ch :: rest) := by
  have hdrop : (l ++ ch :: rest).dropWhile (· ≠ ch) = ch :: rest := by
    rw [dropWhile_append_of_pos]
    · simp
    · intro x hx
      simp only [ne_eq, decide_eq_true_eq]
      rintro rfl
      exact h hx
  rw [strchr, hdrop]

theorem isDigit_toDigits {n : ℕ} {ch : Char} (h : ch ∈ toDigits 10 n) : ch.isDigit :=
  Nat.isDigit_of_mem_toDigits (by decide) (by decide) h

theorem not_mem_toDigits {n : ℕ} {ch : Char} (h : ch.isDigit = false) : ch ∉ toDigits 10 n :=
  fun hmem => by simp [isDigit_toDigits hmem] at h

theorem sign_digit {d : Char} (h : d.isDigit) (s : List Char) : sign (d :: s) = (1, d :: s) := by
  have hminus : d ≠ '-' := by
    rintro rfl
    exact absurd h (by decide)
  have hplus : d ≠ '+' := by
    rintro rfl
    exact absurd h (by decide)
  simp [sign, hminus, hplus]

/-- A positive `int` in front of another character. -/
theorem atoi_toDigits {n : ℕ} (hn : n < 2 ^ 31) {ch : Char} {rest : List Char}
    (hch : ch.isDigit = false) : atoi (toDigits 10 n ++ ch :: rest) = n := by
  obtain ⟨d, ds, hd⟩ := exists_cons_of_ne_nil (Nat.toDigits_ne_nil (n := n))
  have hdigit : d.isDigit := isDigit_toDigits (hd ▸ mem_cons_self)
  have hspace : isSpace d = false := by
    have hnone : [' ', '\t', '\n', '\r', Char.ofNat 11, Char.ofNat 12].all
        (fun x => !x.isDigit) := rfl
    rw [isSpace, decide_eq_false_iff_not]
    intro hmem
    simpa [hdigit] using all_eq_true.mp hnone d hmem
  have htake : (toDigits 10 n ++ ch :: rest).takeWhile Char.isDigit = toDigits 10 n := by
    rw [takeWhile_append_of_pos fun x hx => isDigit_toDigits hx]
    simp [hch]
  have hdrop : (toDigits 10 n ++ ch :: rest).dropWhile isSpace =
      d :: (ds ++ ch :: rest) := by
    rw [hd, cons_append, dropWhile_cons_of_neg (by simp [hspace])]
  rw [hd, cons_append] at htake
  rw [atoi, hdrop, sign_digit hdigit]
  dsimp only
  rw [htake, ← hd, Nat.ofDigitChars_ten_toDigits, one_mul]
  exact Int.bmod_eq_of_le_mul_two (by omega) (by omega)

/-- **A name that was created is read back.** -/
theorem isMatrixVector_create {base : String} {r c : ℕ} (hbase : base ≠ "")
    (hbracket : '[' ∉ base.toList) (hr : r + 1 < 2 ^ 31) (hc : c + 1 < 2 ^ 31) :
    isMatrixVector (createMatrixString base r c) = some (base, (r : ℤ), (c : ℤ)) := by
  have hlist : (createMatrixString base r c).toList = base.toList ++
      '[' :: (toDigits 10 (r + 1) ++ ',' :: (toDigits 10 (c + 1) ++ [']'])) := by
    simp [createMatrixString, Nat.toString_eq_repr, Nat.toList_repr]
  have hname : (createMatrixString base r c).toList.takeWhile (· ≠ '[') = base.toList := by
    rw [hlist, List.takeWhile_append_of_pos]
    · simp
    · intro x hx
      simp only [ne_eq, decide_eq_true_eq]
      rintro rfl
      exact hbracket hx
  have hcomma : ',' ∉ '[' :: toDigits 10 (r + 1) := fun hmem =>
    (List.mem_cons.mp hmem).elim (by decide) (not_mem_toDigits rfl)
  have hclose : ']' ∉ ',' :: toDigits 10 (c + 1) := fun hmem =>
    (List.mem_cons.mp hmem).elim (by decide) (not_mem_toDigits rfl)
  have hpos : 0 < base.toList.length := List.length_pos_of_ne_nil fun h => hbase (by simpa using h)
  rw [isMatrixVector, hname, hlist, strchr_append hbracket]
  simp only [bind_eq_bind, bind_some, List.tail_cons]
  rw [atoi_toDigits hr rfl, ← List.cons_append, strchr_append hcomma]
  simp only [bind_some, List.tail_cons]
  rw [atoi_toDigits hc rfl, ← List.cons_append, strchr_append hclose]
  simp [hpos]

end Names

/-! ## One pass -/

section Pass

variable {V : Type}

/-- The vector is taken for an entry of the matrix vector of this name and length. -/
def inGroup (name : String) (size : ℕ) (v : Vector V) : Bool :=
  match isMatrixVector v.name with
  | none => false
  | some (p, _, _) => p = name ∧ size = v.values.length

theorem inGroup_iff {name : String} {size : ℕ} {v : Vector V} : inGroup name size v ↔
    size = v.values.length ∧ ∃ a b, isMatrixVector v.name = some (name, a, b) := by
  rw [inGroup]
  cases h : isMatrixVector v.name with
  | none => simp
  | some k =>
    obtain ⟨p, a, b⟩ := k
    simp only [decide_eq_true_eq, some.injEq, Prod.mk.injEq]
    constructor
    · rintro ⟨hp, hs⟩
      exact ⟨hs, a, b, hp, rfl, rfl⟩
    · rintro ⟨hs, a', b', hp, -, -⟩
      exact ⟨hp, hs⟩

def flagged (n : ℤ) (name : String) (size : ℕ) (v : Vector V) : Vector V × ℤ :=
  (v, if inGroup name size v then n else 0)

/-- The indices of the group are within those of the candidate. -/
def Bounds (k : Candidate) (vs : List (Vector V)) : Prop :=
  ∀ v ∈ vs, k.s = v.values.length → ∀ a b, isMatrixVector v.name = some (k.name, a, b) →
    a ≤ k.r ∧ b ≤ k.c

/-- The candidate after a vector of its group, or another one. -/
def widen (k : Candidate) (v : Vector V) : Candidate :=
  match isMatrixVector v.name with
  | some (p, a, b) => if p = k.name ∧ k.s = v.values.length then
      { k with r := if a > k.r then a else k.r, c := if b > k.c then b else k.c } else k
  | none => k

theorem scanOne_some (n : ℤ) (k : Candidate) (v : Vector V) :
    scanOne n (some k) v 0 = ((flagged n k.name k.s v).2, some (widen k v)) := by
  rw [scanOne, if_neg (not_not.mpr rfl), flagged, inGroup, widen]
  cases isMatrixVector v.name with
  | none => rfl
  | some q =>
    dsimp only
    split_ifs <;> simp_all

theorem widen_spec (k : Candidate) (v : Vector V) : (widen k v).name = k.name ∧
    (widen k v).s = k.s ∧ k.r ≤ (widen k v).r ∧ k.c ≤ (widen k v).c ∧
      ∀ a b, k.s = v.values.length → isMatrixVector v.name = some (k.name, a, b) →
        a ≤ (widen k v).r ∧ b ≤ (widen k v).c := by
  rw [widen]
  cases isMatrixVector v.name with
  | none => exact ⟨rfl, rfl, le_rfl, le_rfl, fun _ _ _ h => nomatch h⟩
  | some q =>
    dsimp only
    split_ifs with hgroup <;> grind

/-- With a candidate the flags are set for its group. -/
theorem scan_some (n : ℤ) : ∀ (vs : List (Vector V)) (k : Candidate),
    ∃ k', scan n (some k) (vs.map (·, 0)) = (vs.map (flagged n k.name k.s), some k') ∧
      k'.name = k.name ∧ k'.s = k.s ∧ k.r ≤ k'.r ∧ k.c ≤ k'.c ∧ Bounds k' vs
  | [], k => ⟨k, rfl, rfl, rfl, le_rfl, le_rfl, fun v hv => absurd hv not_mem_nil⟩
  | v :: vs, k => by
    obtain ⟨hname, hs, hr, hc, hv⟩ := widen_spec k v
    obtain ⟨k', hscan, hname', hs', hr', hc', hbounds⟩ := scan_some n vs (widen k v)
    rw [hname, hs] at hscan
    refine ⟨k', ?_, hname'.trans hname, hs'.trans hs, hr.trans hr', hc.trans hc', ?_⟩
    · rw [map_cons, scan, scanOne_some]
      dsimp only
      rw [hscan]
      rfl
    · refine forall_mem_cons.mpr ⟨fun hlen a b hread => ?_, hbounds⟩
      obtain ⟨ha, hb⟩ := hv a b (hs.symm.trans (hs'.symm.trans hlen)) (by rw [hread, hname', hname])
      exact ⟨ha.trans hr', hb.trans hc'⟩

/-- Before the first name that looks like one nothing happens. -/
theorem scan_plain {n : ℤ} {v : Vector V} {vs : List (Vector V × ℤ)}
    (h : isMatrixVector v.name = none) :
    scan n none ((v, 0) :: vs) = ((v, 0) :: (scan n none vs).1, (scan n none vs).2) := by
  rw [scan, scanOne, if_neg (not_not.mpr rfl), h]

theorem scan_none (n : ℤ) : ∀ {vs : List (Vector V)},
    vs.find? (fun v => (isMatrixVector v.name).isSome) = none →
      scan n none (vs.map (·, 0)) = (vs.map (·, 0), none)
  | [], _ => rfl
  | v :: vs, h => by
    obtain ⟨hv, hvs⟩ := forall_mem_cons.mp (find?_eq_none.mp h)
    rw [Option.not_isSome_iff_eq_none] at hv
    rw [map_cons, scan_plain hv, scan_none n (find?_eq_none.mpr hvs)]

/-- The first name that looks like one decides. -/
theorem scan_first (n : ℤ) : ∀ {vs : List (Vector V)} {v : Vector V},
    vs.find? (fun v => (isMatrixVector v.name).isSome) = some v →
      ∃ k, scan n none (vs.map (·, 0)) =
          (vs.map (flagged n k.name v.values.length), some k) ∧
        (∃ a b, isMatrixVector v.name = some (k.name, a, b)) ∧ k.s = v.values.length ∧ Bounds k vs
  | [], v, h => nomatch h
  | w :: vs, v, h => by
    rw [find?_cons] at h
    split at h
    case h_1 hw =>
      obtain rfl := some.inj h
      obtain ⟨⟨p, a, b⟩, hname⟩ := Option.isSome_iff_exists.mp hw
      obtain ⟨k, hscan, hk, hs, -, -, hbounds⟩ :=
        scan_some n (w :: vs) ⟨p, a, b, w.values.length, w.dependencies⟩
      refine ⟨k, ?_, ⟨a, b, by rw [hname, hk]⟩, hs, hbounds⟩
      rw [hk, ← hscan, map_cons, scan, scan, scanOne, scanOne, hname]
      simp
    case h_2 hw =>
      rw [Option.isSome_eq_false_iff, Option.isNone_iff_eq_none] at hw
      obtain ⟨k, hscan, hname, hs, hbounds⟩ := scan_first n h
      refine ⟨k, ?_, hname, hs, forall_mem_cons.mpr ⟨fun _ a b hread => ?_, hbounds⟩⟩
      · rw [map_cons, scan_plain hw, hscan, map_cons, flagged, inGroup, hw]
        rfl
      · rw [hw] at hread
        cases hread

def chosen (p : Vector V → Bool) (vs : List (Vector V)) : List (Vector V × ℤ × ℤ) :=
  vs.filterMap fun v => if p v then (isMatrixVector v.name).map fun n => (v, n.2) else none

variable {vs : List (Vector V)}

theorem mem_chosen {p : Vector V → Bool} {x : Vector V × ℤ × ℤ} :
    x ∈ chosen p vs ↔ x.1 ∈ vs ∧ p x.1 ∧ ∃ base, isMatrixVector x.1.name = some (base, x.2) := by
  simp only [chosen, mem_filterMap, Option.ite_none_right_eq_some, Option.map_eq_some_iff]
  constructor
  · rintro ⟨v, hv, hp, n, hn, rfl⟩
    exact ⟨hv, hp, n.1, hn⟩
  · rintro ⟨hv, hp, base, hread⟩
    exact ⟨x.1, hv, hp, _, hread, rfl⟩

theorem mem_group {name : String} {size : ℕ} {x : Vector V × ℤ × ℤ} :
    x ∈ chosen (inGroup name size) vs ↔
      x.1 ∈ vs ∧ size = x.1.values.length ∧ isMatrixVector x.1.name = some (name, x.2) := by
  rw [mem_chosen, inGroup_iff]
  grind

def setAll (m : MatVec V) (xs : List (Vector V × ℤ × ℤ)) : Option (MatVec V) :=
  xs.foldlM (fun mv x => MatVec.set mv x.1 x.2.1 x.2.2) m

/-- The second loop sets the vectors of the group. -/
theorem collect_flagged {n : ℤ} (hn : n ≠ 0) (name : String) (size : ℕ) :
    ∀ (vs : List (Vector V)) (m : MatVec V), collect n m (vs.map (flagged n name size)) =
      (setAll m (chosen (inGroup name size) vs)).map
        (·, vs.map fun w => (w, if inGroup name size w then -1 else 0))
  | [], m => rfl
  | v :: vs, m => by
    rw [map_cons, flagged, collect, chosen, filterMap_cons, ← chosen]
    cases hgroup : inGroup name size v with
    | true =>
      obtain ⟨-, a, b, hread⟩ := inGroup_iff.mp hgroup
      simp only [if_true, hread, Option.map_some, setAll, foldlM_cons, map_cons, hgroup,
        bind_eq_bind, bind_some, collect_flagged hn name size vs]
      cases m.set v a b with
      | none => rfl
      | some m' =>
        simp only [bind_some]
        cases foldlM (fun mv x => MatVec.set mv x.1 x.2.1 x.2.2) m'
          (chosen (inGroup name size) vs) <;> rfl
    | false =>
      simp only [Bool.false_eq_true, if_false, hn.symm, map_cons, hgroup,
        collect_flagged hn name size vs]
      cases setAll m (chosen (inGroup name size) vs) <;> rfl

/-- The last vector with these indices. -/
def lastAt (xs : List (Vector V × ℤ × ℤ)) (i j : ℤ) : Option (Vector V) :=
  (xs.filter (·.2 = (i, j))).getLast?.map Prod.fst

theorem lastAt_cases (xs : List (Vector V × ℤ × ℤ)) (i j : ℤ) :
    (∃ x ∈ xs, x.2 = (i, j) ∧ lastAt xs i j = some x.1) ∨
      (∀ x ∈ xs, x.2 ≠ (i, j)) ∧ lastAt xs i j = none := by
  rw [lastAt]
  cases hlast : (xs.filter (·.2 = (i, j))).getLast? with
  | none =>
    have hnone := getLast?_eq_none_iff.mp hlast
    exact .inr ⟨fun x hx heq => by simpa [heq] using filter_eq_nil_iff.mp hnone x hx, rfl⟩
  | some x =>
    obtain ⟨hx, heq⟩ := mem_filter.mp (mem_of_getLast? hlast)
    exact .inl ⟨x, hx, of_decide_eq_true heq, rfl⟩

/-- The vectors have to fit; then every entry is that of the last vector with its
indices, if there is one. -/
theorem setAll_eq_some_iff : ∀ {xs : List (Vector V × ℤ × ℤ)} {m m' : MatVec V},
    setAll m xs = some m' ↔ (∀ x ∈ xs, x.1.values.length = m.size ∧
      0 ≤ x.2.1 ∧ x.2.1 < m.rows ∧ 0 ≤ x.2.2 ∧ x.2.2 < m.cols) ∧
      m' = { m with entry := fun i j => (lastAt xs i j).elim (m.entry i j) Vector.values }
  | [], m, m' => ⟨fun h => ⟨by simp, (some.inj h).symm⟩, fun h => congrArg some h.2.symm⟩
  | x :: xs, m, m' => by
    rw [setAll, foldlM_cons, MatVec.set, forall_mem_cons]
    split_ifs with hx
    · refine setAll_eq_some_iff.trans (and_congr (by simp [hx]) (Eq.congr_right ?_))
      rw [MatVec.mk.injEq]
      refine ⟨rfl, rfl, rfl, rfl, funext fun i => funext fun j => ?_⟩
      have hiff : i = x.2.1 ∧ j = x.2.2 ↔ x.2 = (i, j) := by
        rw [Prod.ext_iff, eq_comm, eq_comm (a := j)]
      simp only [lastAt, filter_cons, hiff]
      by_cases heq : x.2 = (i, j)
      · simp only [heq, decide_true, if_true, getLast?_cons]
        cases (xs.filter (·.2 = (i, j))).getLast? <;> rfl
      · simp only [heq, decide_false, Bool.false_eq_true, if_false]
    · simp [hx]

/-- The flagged vectors fit into the matrix vector. -/
def Fits (n : ℤ) (m : MatVec V) (ps : List (Vector V × ℤ)) : Prop :=
  ∀ p ∈ ps, p.2 = n → ∃ base a b, isMatrixVector p.1.name = some (base, a, b) ∧
    p.1.values.length = m.size ∧ 0 ≤ a ∧ a < m.rows ∧ 0 ≤ b ∧ b < m.cols

theorem Fits.chosen {n : ℤ} {name : String} {size : ℕ} {m : MatVec V}
    (h : Fits n m (vs.map (flagged n name size))) : ∀ x ∈ chosen (inGroup name size) vs,
      x.1.values.length = m.size ∧ 0 ≤ x.2.1 ∧ x.2.1 < m.rows ∧ 0 ≤ x.2.2 ∧ x.2.2 < m.cols := by
  rintro ⟨v, a, b⟩ hx
  obtain ⟨hmem, hgroup, base, hread⟩ := mem_chosen.mp hx
  obtain ⟨base', a', b', hread', hfit⟩ := h _ (mem_map_of_mem hmem) (if_pos hgroup)
  cases hread.symm.trans hread'
  exact hfit

end Pass

/-! ## The whole search -/

section Search

variable {V : Type} {vectors : List (Vector V)} {v w : Vector V}

theorem Named.read {base : String} {r c : ℕ} (h : Named v base r c) :
    isMatrixVector v.name = some (base, (r : ℤ), (c : ℤ)) := by
  rw [h.name, isMatrixVector_create h.base.1 h.base.2 h.int.1 h.int.2]

/-- A named vector is read back with its own base and indices only. -/
theorem IsNamed.of_read {base : String} {a b : ℤ} (h : IsNamed v)
    (hread : isMatrixVector v.name = some (base, a, b)) :
    ∃ r c : ℕ, a = r ∧ b = c ∧ Named v base r c := by
  obtain ⟨base', r, c, hnamed⟩ := h
  rw [hnamed.read] at hread
  cases hread
  exact ⟨r, c, rfl, rfl, hnamed⟩

theorem Assembled.exists_equation {s : Solver V} {base : String} {r c : ℕ}
    (h : Assembled vectors s) (hv : v ∈ vectors) (hnamed : Named v base r c) :
    ∃ e ∈ s.equations, e.1.name = base ∧ e.1.size = v.values.length := by
  obtain ⟨mv, deps, hfilter, -⟩ := h.one v hv base r c hnamed
  have hmem := hfilter ▸ mem_singleton_self (mv, deps)
  rw [mem_filter, decide_eq_true_eq] at hmem
  exact ⟨_, hmem⟩

theorem sameMatrix_iff {k : Candidate} (hk : ∃ a b, isMatrixVector v.name = some (k.name, a, b))
    (hs : k.s = v.values.length) : SameMatrix v w ↔ inGroup k.name k.s w := by
  obtain ⟨a, b, hv⟩ := hk
  rw [inGroup_iff]
  constructor
  · rintro ⟨hlen, base, _, _, a', b', hv', hw⟩
    rw [hv] at hv'
    cases hv'
    exact ⟨hs.trans hlen, a', b', hw⟩
  · rintro ⟨hlen, a', b', hw⟩
    exact ⟨hs.symm.trans hlen, k.name, a, b, a', b', hv, hw⟩

variable [Zero V]

/-- Named vectors fit into the matrix vector of their group. -/
theorem fits_of_named {k : Candidate} (hbounds : Bounds k vectors)
    (hgroup : ∀ w ∈ vectors, IsNamed w ↔ inGroup k.name k.s w) :
    Fits 1 (MatVec.new k.name k.s (k.r + 1) (k.c + 1)) (vectors.map (flagged 1 k.name k.s)) := by
  rintro p hp hone
  obtain ⟨w, hw, rfl⟩ := mem_map.mp hp
  have hin : inGroup k.name k.s w := by simpa [flagged] using hone
  obtain ⟨hlen, a, b, hread⟩ := inGroup_iff.mp hin
  obtain ⟨r, c, rfl, rfl, -⟩ := ((hgroup w hw).mpr hin).of_read hread
  obtain ⟨hr, hc⟩ := hbounds w hw hlen _ _ hread
  exact ⟨k.name, r, c, hread, hlen.symm, Int.natCast_nonneg r, Int.lt_add_one_of_le hr,
    Int.natCast_nonneg c, Int.lt_add_one_of_le hc⟩

theorem findMatrixVectors_none (fuel : ℕ)
    (h : vectors.find? (fun v => (isMatrixVector v.name).isSome) = none) :
    findMatrixVectors (fuel + 1) vectors = some ⟨vectors.map (·, 0), []⟩ := by
  rw [findMatrixVectors, findLoop, findPass, scan_none 1 h]
  rfl

/-- There is one pass, over the group of the first name that looks like an entry. -/
theorem findMatrixVectors_first (fuel : ℕ)
    (h : vectors.find? (fun v => (isMatrixVector v.name).isSome) = some v) :
    ∃ k, (∃ a b, isMatrixVector v.name = some (k.name, a, b)) ∧
      k.s = v.values.length ∧ Bounds k vectors ∧ findMatrixVectors (fuel + 1) vectors =
        (setAll (.new k.name k.s (k.r + 1) (k.c + 1))
          (chosen (inGroup k.name k.s) vectors)).map fun mv =>
            ⟨vectors.map fun w => (w, if inGroup k.name k.s w then -1 else 0),
              [(mv, k.deps.getD [k.name])]⟩ := by
  obtain ⟨k, hscan, hname, hs, hbounds⟩ := scan_first 1 h
  refine ⟨k, hname, hs, hbounds, ?_⟩
  rw [← hs] at hscan
  rw [findMatrixVectors, findLoop, findPass, hscan]
  dsimp only
  rw [collect_flagged one_ne_zero]
  generalize setAll _ _ = found
  cases found <;> rfl

theorem Assembled.oneMatrix {s : Solver V} {fuel : ℕ}
    (h : findMatrixVectors (fuel + 1) vectors = some s) (ha : Assembled vectors s) :
    OneMatrix vectors := by
  refine ⟨fun v hv w hw => ?_, ?_⟩
  · obtain ⟨k, hk, hs, -, hfind⟩ := findMatrixVectors_first fuel hv
    rw [hfind, Option.map_eq_some_iff] at h
    obtain ⟨mv, hset, rfl⟩ := h
    obtain ⟨-, rfl⟩ := setAll_eq_some_iff.mp hset
    rw [sameMatrix_iff hk hs]
    constructor
    · rintro ⟨base, r, c, hnamed⟩
      obtain ⟨e, he, hbase, hlen⟩ := ha.exists_equation hw hnamed
      cases mem_singleton.mp he
      obtain rfl := hbase
      exact inGroup_iff.mpr ⟨hlen, r, c, hnamed.read⟩
    · intro hgroup
      by_contra hplain
      have hflag := ha.plain _ (mem_map_of_mem hw) hplain
      rw [hgroup] at hflag
      exact absurd hflag (Int.negSucc_ne_zero 0)
  · rintro v hv w hw ⟨base, r, c, hnamed⟩ hname hlen
    obtain ⟨mv, deps, hfilter, -, -, hentry⟩ := ha.one v hv base r c hnamed
    obtain ⟨mv', deps', hfilter', -, -, hentry'⟩ :=
      ha.one w hw base r c ⟨hname.symm.trans hnamed.name, hnamed.base, hnamed.int⟩
    rw [← hlen, hfilter] at hfilter'
    cases hfilter'
    exact hentry.symm.trans hentry'

theorem OneMatrix.assembled {fuel : ℕ} (h : OneMatrix vectors)
    (hv : vectors.find? (fun v => (isMatrixVector v.name).isSome) = some v) :
    ∃ s, findMatrixVectors (fuel + 1) vectors = some s ∧ Assembled vectors s := by
  obtain ⟨k, hk, hs, hbounds, hfind⟩ := findMatrixVectors_first fuel hv
  have hgroup := fun w hw => (h.1 v hv w hw).trans (sameMatrix_iff hk hs)
  rw [setAll_eq_some_iff.mpr ⟨(fits_of_named hbounds hgroup).chosen, rfl⟩] at hfind
  refine ⟨_, hfind, ?_⟩
  constructor
  case same =>
    rw [map_map]
    exact map_id _
  case one =>
    intro w hw base r c hnamed
    have hin := (hgroup w hw).mp ⟨base, r, c, hnamed⟩
    obtain ⟨hlen, a, b, hread⟩ := inGroup_iff.mp hin
    have hread' := hread
    rw [hnamed.read] at hread
    cases hread
    obtain ⟨hr, hc⟩ := hbounds w hw hlen _ _ hread'
    refine ⟨_, _, filter_cons_of_pos (by simp [MatVec.new, hlen]),
      Int.lt_add_one_of_le hr, Int.lt_add_one_of_le hc, ?_⟩
    dsimp only
    rcases lastAt_cases (chosen (inGroup k.name k.s) vectors) r c with
      ⟨x, hx, hrc, heq⟩ | ⟨hnone, -⟩
    · rw [heq]
      obtain ⟨hmem, hlen', hread⟩ := mem_group.mp hx
      rw [hrc] at hread
      obtain ⟨r', c', hr', hc', hnamed'⟩ :=
        ((hgroup x.1 hmem).mpr (inGroup_iff.mpr ⟨hlen', _, _, hread⟩)).of_read hread
      cases hr'
      cases hc'
      exact h.2 x.1 hmem w hw ⟨_, _, _, hnamed'⟩
        (hnamed'.name.trans hnamed.name.symm) (hlen'.symm.trans hlen)
    · exact absurd rfl (hnone (w, r, c) (mem_group.mpr ⟨hw, hlen, hread'⟩))
  case only =>
    intro e he
    obtain rfl := mem_singleton.mp he
    obtain ⟨a, b, hread⟩ := hk
    have hmem := mem_of_find?_eq_some hv
    obtain ⟨r, c, -, -, hnamed⟩ :=
      ((hgroup v hmem).mpr (inGroup_iff.mpr ⟨hs, a, b, hread⟩)).of_read hread
    exact ⟨v, hmem, r, c, hnamed, hs.symm⟩
  case plain =>
    intro p hp hplain
    obtain ⟨w, hw, rfl⟩ := mem_map.mp hp
    exact if_neg fun hin => hplain ((hgroup w hw).mpr hin)

/-- **All matrix vectors are assembled iff** there is only one. -/
theorem findMatrixVectors_assembled_iff (vectors : List (Vector V)) (fuel : ℕ) :
    (∃ s, findMatrixVectors (fuel + 1) vectors = some s ∧ Assembled vectors s) ↔
      OneMatrix vectors := by
  constructor
  · rintro ⟨s, hs, ha⟩
    exact ha.oneMatrix hs
  · intro h
    cases hv : vectors.find? (fun v => (isMatrixVector v.name).isSome) with
    | some v => exact h.assembled hv
    | none =>
      have hplain : ∀ v ∈ vectors, ∀ base r c, ¬Named v base r c := by
        intro v hmem base r c hnamed
        have hnot := find?_eq_none.mp hv v hmem
        simp [hnamed.read] at hnot
      refine ⟨_, findMatrixVectors_none fuel hv, ?_⟩
      constructor
      case same =>
        rw [map_map]
        exact map_id _
      case one => exact fun v hmem base r c hnamed => absurd hnamed (hplain v hmem base r c)
      case only => exact fun e he => absurd he not_mem_nil
      case plain =>
        intro p hp _
        obtain ⟨w, -, rfl⟩ := mem_map.mp hp
        rfl

/-- Two S parameters and one impedance. -/
def twoMatrices : List (Vector ℕ) :=
  [⟨"S[1,1]", [1], none⟩, ⟨"S[2,1]", [2], none⟩, ⟨"Z[1,1]", [3], none⟩]

theorem twoMatrices_not_assembled :
    ¬∃ s, findMatrixVectors 4 twoMatrices = some s ∧ Assembled twoMatrices s := by
  rintro ⟨s, hs, ha⟩
  have heqs : s.equations.map (fun e => e.1.name) = ["S"] := by
    have hrun : (findMatrixVectors 4 twoMatrices).map
        (fun s => s.equations.map fun e => e.1.name) = some ["S"] := by decide
    rw [hs] at hrun
    exact some.inj hrun
  have hz : Named ⟨"Z[1,1]", [3], none⟩ "Z" 0 0 := ⟨rfl, by decide, by decide⟩
  obtain ⟨e, he, hname, -⟩ := ha.exists_equation (by simp [twoMatrices]) hz
  have hmem : "Z" ∈ s.equations.map (fun e => e.1.name) := mem_map.mpr ⟨e, he, hname⟩
  rw [heqs] at hmem
  exact absurd hmem (by decide)

end Search

/-! ## A matrix vector by its name -/

section Lookup

variable {V : Type} {data : List (Vector V)} {name : String}

/-- The vectors both loops of `getMatrixVector` look at: their names begin with the one
looked for. -/
def matching (data : List (Vector V)) (name : String) : List (Vector V × ℤ × ℤ) :=
  chosen (fun v => name.toList.isPrefixOf v.name.toList) data

/-- One vector in `getMatrixVectorSize`. -/
def widenSize : ℤ × ℤ × ℤ → Vector V × ℤ × ℤ → ℤ × ℤ × ℤ
  | (rs, cs, ss), (v, r, c) => (if rs < r then r else rs, if cs < c then c else cs,
      if ss < v.values.length then (v.values.length : ℤ) else ss)

/-- The largest row, column and length. -/
def getMatrixVectorSize (data : List (Vector V)) (name : String) : ℤ × ℤ × ℤ :=
  (matching data name).foldl widenSize (-1, -1, -1)

/-- `none` inside is NULL, and outside a failed assertion. -/
def getMatrixVector [Zero V] (data : List (Vector V)) (name : String) :
    Option (Option (MatVec V)) :=
  let (rs, cs, ss) := getMatrixVectorSize data name
  if 0 ≤ rs ∧ 0 ≤ cs ∧ 0 < ss then
    (setAll (.new name ss.toNat (rs + 1) (cs + 1)) (matching data name)).map some
  else some none

/-- A vector is called `name[r,c]`. -/
def Own (data : List (Vector V)) (name : String) (r c : ℕ) (v : Vector V) : Prop :=
  v ∈ data ∧ Named v name r c

/-- The vectors called `name[r,c]` are in their places, and nothing else is there. -/
def TakesOwn [Zero V] (data : List (Vector V)) (name : String) : Option (MatVec V) → Prop
  | none => ∀ r c v, ¬Own data name r c v
  | some mv => (∃ r c v, Own data name r c v ∧ mv.rows = r + 1) ∧
      (∃ r c v, Own data name r c v ∧ mv.cols = c + 1) ∧ ∀ r c : ℕ,
      (∃ v, Own data name r c v ∧ r < mv.rows ∧ c < mv.cols ∧ mv.entry r c = v.values) ∨
      (∀ v, ¬Own data name r c v) ∧ mv.entry r c = replicate mv.size 0

/-- No vector is called so, and what begins like the name has no place or no values. -/
def NothingRead (data : List (Vector V)) (name : String) : Prop :=
  (∀ r c v, ¬Own data name r c v) ∧ ((∀ x ∈ matching data name, x.2.1 < 0) ∨
    (∀ x ∈ matching data name, x.2.2 < 0) ∨ ∀ x ∈ matching data name, x.1.values = [])

/-- What begins like the name and is read as an entry has one length and stays within
the rows and columns of the vectors called so. The last one at a place is one of these,
or is no different from it, or from nothing at all. -/
structure OwnLast [Zero V] (data : List (Vector V)) (name : String) (size : ℕ) : Prop where
  fits : ∀ x ∈ matching data name, x.1.values.length = size ∧ 0 ≤ x.2.1 ∧ 0 ≤ x.2.2
  rows : ∀ x ∈ matching data name, ∃ r c v, Own data name r c v ∧ x.2.1 ≤ r
  cols : ∀ x ∈ matching data name, ∃ r c v, Own data name r c v ∧ x.2.2 ≤ c
  last : ∀ (r c : ℕ) (w : Vector V), lastAt (matching data name) r c = some w →
    (∃ v, Own data name r c v ∧ w.values = v.values) ∨
      (∀ v, ¬Own data name r c v) ∧ w.values = replicate size 0

theorem foldl_widenSize : ∀ (l : List (Vector V × ℤ × ℤ)) (s : ℤ × ℤ × ℤ), ∃ rs cs ss,
    l.foldl widenSize s = (rs, cs, ss) ∧
      (∀ x ∈ l, x.2.1 ≤ rs ∧ x.2.2 ≤ cs ∧ x.1.values.length ≤ ss) ∧
      (s.1 ≤ rs ∧ s.2.1 ≤ cs ∧ s.2.2 ≤ ss) ∧ (rs = s.1 ∨ ∃ x ∈ l, x.2.1 = rs) ∧
      (cs = s.2.1 ∨ ∃ x ∈ l, x.2.2 = cs) ∧ (ss = s.2.2 ∨ ∃ x ∈ l, x.1.values.length = ss)
  | [], (rs, cs, ss) => ⟨rs, cs, ss, rfl, by simp⟩
  | x :: l, s => by
    obtain ⟨rs, cs, ss, heq, hrest⟩ := foldl_widenSize l (widenSize s x)
    refine ⟨rs, cs, ss, heq, ?_⟩
    simp only [widenSize, forall_mem_cons, exists_mem_cons_iff] at hrest ⊢
    grind

theorem Own.mem_matching {v : Vector V} {r c : ℕ} (h : Own data name r c v) :
    (v, (r : ℤ), (c : ℤ)) ∈ matching data name := by
  refine mem_chosen.mpr ⟨h.1, ?_, name, h.2.read⟩
  rw [h.2.name, createMatrixString]
  simp

/-- NULL: there is no row, no column or no value. -/
theorem getMatrixVector_eq_none_iff [Zero V] : getMatrixVector data name = some none ↔
    (∀ x ∈ matching data name, x.2.1 < 0) ∨ (∀ x ∈ matching data name, x.2.2 < 0) ∨
      ∀ x ∈ matching data name, x.1.values = [] := by
  obtain ⟨rs, cs, ss, hsizes, hbounds, -, hrs, hcs, hss⟩ :=
    foldl_widenSize (matching data name) (-1, -1, -1)
  rw [getMatrixVector, getMatrixVectorSize, hsizes]
  dsimp only at hrs hcs hss ⊢
  constructor
  · intro hrun
    by_contra! hread
    obtain ⟨⟨x, hx, hxr⟩, ⟨y, hy, hyc⟩, z, hz, hzs⟩ := hread
    have hr := (hbounds x hx).1
    have hc := (hbounds y hy).2.1
    have hs := (hbounds z hz).2.2
    have hpos := length_pos_of_ne_nil hzs
    simp [show 0 ≤ rs ∧ 0 ≤ cs ∧ 0 < ss by omega] at hrun
  · refine fun hcases => if_neg fun ⟨hr, hc, hs⟩ => ?_
    obtain ⟨x, hx, hxr⟩ := hrs.resolve_left (by omega)
    obtain ⟨y, hy, hyc⟩ := hcs.resolve_left (by omega)
    obtain ⟨z, hz, hzs⟩ := hss.resolve_left (by omega)
    rcases hcases with hneg | hneg | hempty
    · have := hneg x hx
      omega
    · have := hneg y hy
      omega
    · rw [hempty z hz, length_nil] at hzs
      omega

/-- **A matrix vector is found by its name iff** no other name gets in its way. -/
theorem getMatrixVector_own_iff [Zero V] (data : List (Vector V)) (name : String) :
    (∃ result, getMatrixVector data name = some result ∧ TakesOwn data name result) ↔
      NothingRead data name ∨
        (∃ r c v, Own data name r c v) ∧ ∃ size, 0 < size ∧ OwnLast data name size := by
  rw [Option.exists]
  refine or_congr (and_comm.trans (and_congr_right' getMatrixVector_eq_none_iff)) ?_
  obtain ⟨rs, cs, ss, hsizes, hbounds, -, hrs, hcs, hss⟩ :=
    foldl_widenSize (matching data name) (-1, -1, -1)
  rw [getMatrixVector, getMatrixVectorSize, hsizes]
  dsimp only at hrs hcs hss ⊢
  constructor
  · rintro ⟨mv, hrun, ⟨r₀, c₀, v₀, hown, hrows⟩, ⟨r₁, c₁, v₁, hown', hcols⟩, hentry⟩
    split_ifs at hrun with hread
    · obtain ⟨_, hset, ⟨⟩⟩ := Option.map_eq_some_iff.mp hrun
      obtain ⟨hfits, rfl⟩ := setAll_eq_some_iff.mp hset
      dsimp only [MatVec.new] at hfits hrows hcols
      refine ⟨⟨r₀, c₀, v₀, hown⟩, ss.toNat, by omega, ?_⟩
      constructor
      case fits => exact fun x hx => ⟨(hfits x hx).1, (hfits x hx).2.1, (hfits x hx).2.2.2.1⟩
      case rows => exact fun x hx => ⟨r₀, c₀, v₀, hown, by have := (hbounds x hx).1; omega⟩
      case cols => exact fun x hx => ⟨r₁, c₁, v₁, hown', by have := (hbounds x hx).2.1; omega⟩
      case last =>
        intro r c w hw
        have hplace := hentry r c
        simp only [hw, Option.elim] at hplace
        exact hplace.imp_left fun ⟨v, hv, _, _, heq⟩ => ⟨v, hv, heq⟩
    · cases hrun
  · rintro ⟨⟨r₀, c₀, v₀, hown⟩, size, hpos, h⟩
    have hbound := hbounds _ hown.mem_matching
    dsimp only at hbound
    obtain ⟨x, hx, hxr⟩ := hrs.resolve_left (by omega)
    obtain ⟨y, hy, hyc⟩ := hcs.resolve_left (by omega)
    obtain ⟨z, hz, hzs⟩ := hss.resolve_left (by omega)
    have hsize : ss = size := by rw [← hzs, (h.fits z hz).1]
    have hfits : ∀ x ∈ matching data name, x.1.values.length = ss.toNat ∧
        0 ≤ x.2.1 ∧ x.2.1 < rs + 1 ∧ 0 ≤ x.2.2 ∧ x.2.2 < cs + 1 := by
      intro x hx
      have := h.fits x hx
      have := hbounds x hx
      omega
    rw [if_pos (by omega), setAll_eq_some_iff.mpr ⟨hfits, rfl⟩]
    refine ⟨_, rfl, ?_, ?_, fun r c => ?_⟩
    · obtain ⟨r, c, v, hv, hle⟩ := h.rows x hx
      have := (hbounds _ hv.mem_matching).1
      exact ⟨r, c, v, hv, by dsimp only [MatVec.new] at this ⊢; omega⟩
    · obtain ⟨r, c, v, hv, hle⟩ := h.cols y hy
      have := (hbounds _ hv.mem_matching).2.1
      exact ⟨r, c, v, hv, by dsimp only [MatVec.new] at this ⊢; omega⟩
    · have hinside : ∀ {v}, Own data name r c v → (r : ℤ) < rs + 1 ∧ (c : ℤ) < cs + 1 := fun hv =>
        ⟨(hfits _ hv.mem_matching).2.2.1, (hfits _ hv.mem_matching).2.2.2.2⟩
      dsimp only [MatVec.new]
      rcases lastAt_cases (matching data name) r c with ⟨w, -, -, hw⟩ | ⟨hno, hw⟩
      · rw [hw, hsize, Int.toNat_natCast]
        exact (h.last r c _ hw).imp_left fun ⟨v, hv, heq⟩ =>
          ⟨v, hv, (hinside hv).1, (hinside hv).2, heq⟩
      · rw [hw]
        exact .inr ⟨fun v hv => hno _ hv.mem_matching rfl, rfl⟩

/-- A matrix vector `S` and one with a longer name. -/
def longerName : List (Vector ℕ) := [⟨"S[1,1]", [1], none⟩, ⟨"S2[1,1]", [2], none⟩]

theorem getMatrixVector_longerName :
    ¬∃ result, getMatrixVector longerName "S" = some result ∧ TakesOwn longerName "S" result := by
  rintro ⟨result, hrun, htakes⟩
  have hentry : (getMatrixVector longerName "S").map (·.map fun mv => mv.entry 0 0) =
      some (some [2]) := by rfl
  rw [hrun] at hentry
  cases result with
  | none => cases hentry
  | some mv =>
    have hvalue := some.inj (some.inj hentry)
    rcases htakes.2.2 0 0 with ⟨v, ⟨hv, hnamed⟩, -, -, heq⟩ | ⟨hnone, -⟩
    · rcases mem_pair.mp hv with rfl | rfl
      · cases heq.symm.trans hvalue
      · exact absurd hnamed.name (by decide)
    · exact hnone _ ⟨mem_cons_self, rfl, by decide, by decide⟩

end Lookup

end Qucs.MatrixVectors
