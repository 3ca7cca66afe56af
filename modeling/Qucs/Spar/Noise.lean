/-
# Noise waves through a join

A circuit with noise sends noise waves out of its ports, known by the matrix of
their correlations. When two ports are joined, `noiseInterconnect` and
`noiseConnect` compute the correlations at the ports that are left. Each
computes one half of the matrix, column by column down to the diagonal, and
writes the conjugate of every entry to the other half.

* circuit::getN: `NoisyCircuit.N`
* result->setN: `Entries`, what has been written
* the loops over i1 with the break: `halfColumn`
* the loop "across D and C": `acrossColumn`

Every entry is written, the matrix is Hermitian, and it is `T C Tᴴ` for the map
`T` from the noise waves of the circuits to those of the joined one
(`noise_exact`). The complex numbers are any field with a conjugation;
`norm (x)` is `x * star x`.
-/
import Qucs.Lib.Multiport
import Qucs.Spar.Join

namespace Qucs.Spar

open Lib.Multiport List
open Fin (ext val)
open List (range' range)
open Function (update update_apply)

variable {ι K : Type*}

/-! ## The two joins -/

/-- A circuit with the correlations of its noise waves. -/
structure NoisyCircuit (K : Type*) extends Circuit K where
  N : ℕ → ℕ → K

/-- The entries that have been written. -/
abbrev Entries (K : Type*) := ℕ × ℕ → Option K

section Loops

variable [Star K]

/-- One column down to the diagonal, where the loop ends; the other half gets the
conjugates. -/
def halfColumn (value : ι → K) (j2 : ℕ) : List ι → ℕ → Entries K → Entries K
  | [], _, n => n
  | i1 :: rest, i2, n =>
    let p := value i1
    let n := update n (i2, j2) (some p)
    if i2 ≥ j2 then n
    else halfColumn value j2 rest (i2 + 1) (update n (j2, i2) (some (star p)))

/-- The part of a column that belongs to the other circuit. -/
def acrossColumn (value : ι → K) (j2 : ℕ) : List ι → ℕ → Entries K → ℕ × Entries K
  | [], i2, n => (i2, n)
  | i1 :: rest, i2, n =>
    let p := value i1
    acrossColumn value j2 rest (i2 + 1)
      (update (update n (i2, j2) (some p)) (j2, i2) (some (star p)))

end Loops

section Joins

variable [Field K] [StarRing K] [DecidableEq K]

/-- An entry, with the ports `k` and `l` joined. -/
def interconnectNoise (c : NoisyCircuit K) (k l i1 j1 : ℕ) : K :=
  let tiny1 := tiny (interconnectDenominator c.toCircuit k l)
  let tiny2 := tiny1 * tiny1
  let t := (1 - c.S k l * tiny1) * (1 - c.S l k * tiny1) - c.S k k * c.S l l * tiny2
  let k1 := (c.S i1 l * (1 - c.S l k) + c.S l l * c.S i1 k) * tiny2 / t
  let k2 := (c.S i1 k * (1 - c.S k l) + c.S k k * c.S i1 l) * tiny2 / t
  let k3 := (c.S j1 l * (1 - c.S l k) + c.S l l * c.S j1 k) * tiny2 / t
  let k4 := (c.S j1 k * (1 - c.S k l) + c.S k k * c.S j1 l) * tiny2 / t
  c.N i1 j1 + c.N k j1 * k1 + c.N l j1 * k2 +
    star k3 * (c.N i1 k + c.N k k * k1 + c.N l k * k2) +
    star k4 * (c.N i1 l + c.N k l * k1 + c.N l l * k2)

/-- The ports that are left of a circuit whose ports `k` and `l` are joined. -/
def keptPorts (c : NoisyCircuit K) (k l : ℕ) : List ℕ :=
  c.ports.filter fun j1 => ¬(j1 = k ∨ j1 = l)

/-- All entries, as `spsolver::noiseInterconnect`. -/
def noiseInterconnect (c : NoisyCircuit K) (k l : ℕ) : Entries K :=
  (keptPorts c k l).zipIdx.foldl
    (fun n j => halfColumn (fun i1 => interconnectNoise c k l i1 j.1) j.2 (keptPorts c k l) 0 n)
    fun _ => none

variable (c d : NoisyCircuit K)

/-- The denominator of `noiseConnect`, and the factor that keeps it from
vanishing. -/
def connectTiny (k l : ℕ) : K :=
  tiny (connectedDenominator c.toCircuit d.toCircuit k l)

def connectT (k l : ℕ) : K :=
  1 - c.S k k * d.S l l * (connectTiny c d k l * connectTiny c d k l)

/-- An entry of the C block. -/
def insideC (k l i1 j1 : ℕ) : K :=
  let tiny1 := connectTiny c d k l
  let tiny2 := tiny1 * tiny1
  let tiny3 := tiny1 * tiny2
  let tiny4 := tiny1 * tiny3
  let t := connectT c d k l
  c.N i1 j1 +
    c.N k j1 * d.S l l * c.S i1 k * tiny2 / t +
    c.N i1 k * star (d.S l l * c.S j1 k * tiny2 / t) +
    (c.N k k * (d.S l l * star (d.S l l)) + d.N l l) *
      c.S i1 k * star (c.S j1 k) * tiny4 / (t * star t)

/-- An entry between the blocks. -/
def acrossDC (k l i1 j1 : ℕ) : K :=
  let tiny1 := connectTiny c d k l
  let tiny2 := tiny1 * tiny1
  let tiny3 := tiny1 * tiny2
  let t := connectT c d k l
  (c.N k k * d.S l l + d.N l l * star (c.S k k)) *
      c.S i1 k * star (d.S j1 l) * tiny3 / (t * star t) +
    d.N l j1 * c.S i1 k * tiny1 / t +
    c.N i1 k * star (d.S j1 l * tiny1 / t)

/-- An entry of the D block. -/
def insideD (k l i1 j1 : ℕ) : K :=
  let tiny1 := connectTiny c d k l
  let tiny2 := tiny1 * tiny1
  let tiny3 := tiny1 * tiny2
  let tiny4 := tiny1 * tiny3
  let t := connectT c d k l
  d.N i1 j1 +
    (d.N l l * (c.S k k * star (c.S k k)) + c.N k k) *
      d.S i1 l * star (d.S j1 l) * tiny4 / (t * star t) +
    d.N i1 l * star (c.S k k * d.S j1 l * tiny2 / t) +
    d.N l j1 * c.S k k * d.S i1 l * tiny2 / t

/-- The ports that are left of a circuit whose port `k` is joined. -/
def otherPorts (c : NoisyCircuit K) (k : ℕ) : List ℕ := c.ports.filter fun j1 => ¬j1 = k

/-- All entries, as `spsolver::noiseConnect`. -/
def noiseConnect (k l : ℕ) : Entries K :=
  -- handle C block
  let n := (otherPorts c k).zipIdx.foldl
    (fun n j => halfColumn (fun i1 => insideC c d k l i1 j.1) j.2 (otherPorts c k) 0 n)
      fun _ => none
  -- handle D block
  ((otherPorts d l).zipIdx (otherPorts c k).length).foldl
    (fun n j =>
      let across := acrossColumn (fun i1 => acrossDC c d k l i1 j.1) j.2 (otherPorts c k) 0 n
      halfColumn (fun i1 => insideD c d k l i1 j.1) j.2 (otherPorts d l) across.1 across.2) n

end Joins

/-! ## The loops -/

section Filled

variable [Star K]

/-- A column and its mirror image, from row `lo` to before row `hi`. -/
def mirrored (w : ℕ → K) (j2 lo hi : ℕ) (n : Entries K) : Entries K := fun q =>
  if q.2 = j2 ∧ lo ≤ q.1 ∧ q.1 < hi then some (w q.1)
  else if q.1 = j2 ∧ lo ≤ q.2 ∧ q.2 < hi then some (star (w q.2))
  else n q

theorem mirrored_append (w : ℕ → K) {j2 lo mid hi : ℕ} (h₁ : lo ≤ mid) (h₂ : mid ≤ hi)
    (n : Entries K) : mirrored w j2 mid hi (mirrored w j2 lo mid n) = mirrored w j2 lo hi n := by
  funext ⟨i, j⟩
  simp only [mirrored]
  split_ifs <;> first | rfl | omega

theorem mirrored_one (w : ℕ → K) {j2 i2 : ℕ} (h : i2 < j2) (n : Entries K) :
    update (update n (i2, j2) (some (w i2))) (j2, i2) (some (star (w i2))) =
      mirrored w j2 i2 (i2 + 1) n := by
  funext ⟨i, j⟩
  grind [mirrored, update_apply]

theorem mirrored_diag (w : ℕ → K) (j2 : ℕ) (n : Entries K) :
    update n (j2, j2) (some (w j2)) = mirrored w j2 j2 (j2 + 1) n := by
  funext ⟨i, j⟩
  grind [mirrored, update_apply]

section

variable {value : ι → K} {w : ℕ → K} {j2 : ℕ} {list : List ι} {i2 : ℕ}
  (hvalue : list.map value = (range' i2 list.length).map w)
include hvalue

theorem halfColumn_eq (hle : i2 ≤ j2) (hlen : j2 < i2 + list.length) (n : Entries K) :
    halfColumn value j2 list i2 n = mirrored w j2 i2 (j2 + 1) n := by
  induction list generalizing i2 n with
  | nil => exact absurd hlen (by simpa using hle)
  | cons i1 rest ih =>
    rw [length_cons, range'_succ, map_cons, map_cons, cons.injEq] at hvalue
    rw [length_cons] at hlen
    rw [halfColumn, hvalue.1]
    split
    case isTrue hdiag =>
      obtain rfl : i2 = j2 := by omega
      exact mirrored_diag w i2 n
    case isFalse hdiag =>
      rw [ih hvalue.2 (by omega) (by omega), mirrored_one w (by omega),
        mirrored_append w (by omega) (by omega)]

theorem acrossColumn_eq (hlen : i2 + list.length ≤ j2) (n : Entries K) :
    acrossColumn value j2 list i2 n =
      (i2 + list.length, mirrored w j2 i2 (i2 + list.length) n) := by
  induction list generalizing i2 n with
  | nil =>
    refine Prod.ext rfl (funext fun q => ?_)
    show n q = mirrored w j2 i2 i2 n q
    rw [mirrored, if_neg (by omega), if_neg (by omega)]
  | cons i1 rest ih =>
    rw [length_cons, range'_succ, map_cons, map_cons, cons.injEq] at hvalue
    rw [length_cons] at hlen ⊢
    rw [acrossColumn, hvalue.1, ih hvalue.2 (by omega), mirrored_one w (by omega),
      mirrored_append w (by omega) (by omega), Nat.add_right_comm, Nat.add_assoc]

end

/-- All columns of a matrix, each down to the diagonal. -/
def columns (E : ℕ → ℕ → K) (js : List ℕ) (n : Entries K) : Entries K :=
  js.foldl (fun n j2 => mirrored (fun i2 => E i2 j2) j2 0 (j2 + 1) n) n

/-- **Every entry is written**: one half by its value, the other half by the
conjugate. -/
theorem columns_range (E : ℕ → ℕ → K) {size i j : ℕ} (hi : i < size) (hj : j < size) :
    columns E (range size) (fun _ => none) (i, j) =
      some (if i ≤ j then E i j else star (E j i)) := by
  induction size with
  | zero => exact absurd hi (Nat.not_lt_zero i)
  | succ size ih =>
    have hlast : columns E (range (size + 1)) (fun _ => none) =
        mirrored (fun i2 => E i2 size) size 0 (size + 1)
          (columns E (range size) fun _ => none) := by
      rw [columns, range_succ, foldl_append]
      rfl
    rw [hlast]
    rcases Nat.lt_succ_iff_lt_or_eq.mp hj with hj | rfl
    · rcases Nat.lt_succ_iff_lt_or_eq.mp hi with hi | rfl
      · rw [← ih hi hj]
        grind [mirrored]
      · grind [mirrored]
    · grind [mirrored]

/-- The rounds of a loop whose second index counts the ports. -/
theorem zipIdx_map_range' (port : ℕ → ι) (s len : ℕ) :
    ((range' s len).map port).zipIdx s = (range' s len).map fun j => (port j, j) := by
  induction len generalizing s with
  | zero => rfl
  | succ len ih => rw [range'_succ, map_cons, map_cons, zipIdx_cons, ih]

theorem eq_map_range' (l : List ℕ) (o s : ℕ) :
    l = (range' s l.length).map fun j => l.getD (j - s) o := by
  refine ext_getElem (by simp) fun t h₁ h₂ => ?_
  rw [getElem_map, getElem_range', Nat.one_mul, Nat.add_sub_cancel_left, getD_eq_getElem _ _ h₁]

theorem halfColumns_eq (entry : ℕ → ℕ → K) (port : ℕ → ℕ) {E : ℕ → ℕ → K} {size : ℕ}
    (hE : ∀ i < size, ∀ j < size, E i j = entry (port i) (port j)) (n : Entries K) :
    (((range' 0 size).map port).zipIdx).foldl (fun n j => halfColumn (fun i1 => entry i1 j.1)
      j.2 ((range' 0 size).map port) 0 n) n = columns E (range' 0 size) n := by
  rw [zipIdx_map_range', foldl_map, columns]
  refine foldl_ext _ _ _ fun n j hj => ?_
  have hj : j < size := by simpa using hj
  refine halfColumn_eq ?_ (Nat.zero_le j) (by simpa using hj) n
  rw [length_map, length_range', map_map]
  refine map_congr_left fun i hi => ?_
  exact (hE i (by simpa using hi) j hj).symm

end Filled

/-! ## The correlations -/

section Exact

variable [Field K] [StarRing K] [DecidableEq K]

def Circuit.scattering (c : Circuit K) : Matrix (Fin c.size) (Fin c.size) K :=
  Matrix.of fun i j => c.S i j

def NoisyCircuit.correlation (c : NoisyCircuit K) : Matrix (Fin c.size) (Fin c.size) K :=
  Matrix.of fun i j => c.N i j

/-- The port of a circuit that a row of the result stands for. -/
def keptPort (c : NoisyCircuit K) (k l : ℕ) (i : Fin (keptPorts c k l).length) : Fin c.size :=
  ⟨(keptPorts c k l)[i], by
    have := List.mem_of_mem_filter (List.getElem_mem i.isLt)
    exact List.mem_range.mp this⟩

def otherPort (c : NoisyCircuit K) (k : ℕ) (i : Fin (otherPorts c k).length) : Fin c.size :=
  ⟨(otherPorts c k)[i], by
    have := List.mem_of_mem_filter (List.getElem_mem i.isLt)
    exact List.mem_range.mp this⟩

omit [DecidableEq K] in
theorem congruence_isHermitian {κ ρ : Type*} [Fintype ρ] {T : Matrix κ ρ K} {C : Matrix ρ ρ K}
    (hC : C.IsHermitian) : (T * C * T.conjTranspose).IsHermitian := by
  rw [Matrix.IsHermitian, Matrix.conjTranspose_mul, Matrix.conjTranspose_mul,
    Matrix.conjTranspose_conjTranspose, hC.eq, Matrix.mul_assoc]

theorem interconnectNoise_eq {c : NoisyCircuit K} {k l : Fin c.size}
    (hd : interconnectDenominator c.toCircuit k l ≠ 0) {κ : Type*}
    (kept : κ → Fin c.size) (i j : κ) :
    interconnectNoise c k l (kept i) (kept j) =
      (noiseMap c.scattering kept k l * c.correlation *
        (noiseMap c.scattering kept k l).conjTranspose) i j := by
  have htiny : tiny (interconnectDenominator c.toCircuit k l) = 1 := if_neg hd
  have hk : ∀ m : Fin c.size, (c.S m l * (1 - c.S l k) + c.S l l * c.S m k) /
      ((1 - c.S k l) * (1 - c.S l k) - c.S k k * c.S l l) =
        viaTie c.scattering k l m := fun _ => rfl
  have hl : ∀ m : Fin c.size, (c.S m k * (1 - c.S k l) + c.S k k * c.S m l) /
      ((1 - c.S k l) * (1 - c.S l k) - c.S k k * c.S l l) = viaTie c.scattering l k m := by
    intro m
    exact congrArg _ (denominator_swap c.scattering k l).symm
  simp only [interconnectNoise, htiny, mul_one, hk, hl]
  rw [congruence_apply]
  simp only [NoisyCircuit.correlation, Matrix.of_apply]
  ring

omit [DecidableEq K] in
/-- What a loop leaves, for entries that are those of a Hermitian matrix. -/
theorem columns_eq_some {κ : Type*} {P : Matrix κ κ K} (hP : P.IsHermitian) (index : κ → ℕ)
    {size : ℕ} (hindex : ∀ i, index i < size) {E : ℕ → ℕ → K}
    (hE : ∀ i j, index i ≤ index j → E (index i) (index j) = P i j) (i j : κ) :
    columns E (range size) (fun _ => none) (index i, index j) = some (P i j) := by
  rw [columns_range E (hindex i) (hindex j)]
  split
  case isTrue h => rw [hE i j h]
  case isFalse h => rw [hE j i (not_le.mp h).le, hP.apply]

theorem noiseInterconnect_exact {c : NoisyCircuit K} (hN : c.correlation.IsHermitian)
    {k l : Fin c.size} (hkl : k ≠ l) (hd : interconnectDenominator c.toCircuit k l ≠ 0) :
    ∃ T,
      IsNoiseMap c.scattering (keptPort c k l) k l T ∧
      (T * c.correlation * T.conjTranspose).IsHermitian ∧
      ∀ i j : Fin (keptPorts c k l).length,
        noiseInterconnect c k l (i, j) = some ((T * c.correlation * T.conjTranspose) i j) := by
  have hmem : ∀ m : ℕ, m ∈ keptPorts c k l ↔ m < c.size ∧ m ≠ k ∧ m ≠ l := by
    intro m
    simp [keptPorts, Circuit.ports]
  have hmap : IsNoiseMap c.scattering (keptPort c k l) k l
      (noiseMap c.scattering (keptPort c k l) k l) := by
    refine isNoiseMap hd hkl (fun m hmk hml => ?_) fun i => ?_
    · obtain ⟨i, hi, heq⟩ := getElem_of_mem ((hmem m).mpr
        ⟨m.isLt, fun h => hmk (ext h), fun h => hml (ext h)⟩)
      exact ⟨⟨i, hi⟩, ext heq⟩
    · have := (hmem _).mp (getElem_mem i.isLt)
      exact ⟨fun h => this.2.1 (congrArg val h), fun h => this.2.2 (congrArg val h)⟩
  refine ⟨_, hmap, congruence_isHermitian hN, fun i j => ?_⟩
  let port := fun i => (keptPorts c k l).getD (i - 0) 0
  have hport : ∀ i : Fin (keptPorts c k l).length, port i = keptPort c k l i := fun i =>
    getD_eq_getElem _ _ i.isLt
  have hlist : keptPorts c k l = (range' 0 (keptPorts c k l).length).map port := eq_map_range' _ 0 0
  have hloop : noiseInterconnect c k l =
      columns (fun i j => interconnectNoise c k l (port i) (port j))
      (range (keptPorts c k l).length) fun _ => none := by
    rw [noiseInterconnect, range_eq_range',
      ← halfColumns_eq (interconnectNoise c k l) port fun _ _ _ _ => rfl, ← hlist]
  rw [hloop]
  refine columns_eq_some (congruence_isHermitian hN) val (fun i => i.isLt) (fun i j _ => ?_) i j
  rw [hport, hport]
  exact interconnectNoise_eq hd (keptPort c k l) i j

/-! ## Two circuits -/

variable {c d : NoisyCircuit K} {k : Fin c.size} {l : Fin d.size}

def bothScattering (c d : NoisyCircuit K) :
    Matrix (Fin c.size ⊕ Fin d.size) (Fin c.size ⊕ Fin d.size) K :=
  Matrix.fromBlocks c.scattering 0 0 d.scattering

def bothCorrelation (c d : NoisyCircuit K) :
    Matrix (Fin c.size ⊕ Fin d.size) (Fin c.size ⊕ Fin d.size) K :=
  Matrix.fromBlocks c.correlation 0 0 d.correlation

section Blocks

omit [StarRing K] [DecidableEq K]

theorem bothCorrelation_c (i j : Fin c.size) :
    bothCorrelation c d (.inl i) (.inl j) = c.N i j := rfl

theorem bothCorrelation_d (i j : Fin d.size) :
    bothCorrelation c d (.inr i) (.inr j) = d.N i j := rfl

theorem bothCorrelation_cd (i : Fin c.size) (j : Fin d.size) :
    bothCorrelation c d (.inl i) (.inr j) = 0 := rfl

theorem bothCorrelation_dc (i : Fin d.size) (j : Fin c.size) :
    bothCorrelation c d (.inr i) (.inl j) = 0 := rfl

end Blocks

/-- The rows of the result: the other ports of `c`, then those of `d`. -/
abbrev OtherRows (c d : NoisyCircuit K) (k l : ℕ) : Type :=
  Fin (otherPorts c k).length ⊕ Fin (otherPorts d l).length

def otherPortOf (c d : NoisyCircuit K) (k l : ℕ) : OtherRows c d k l → Fin c.size ⊕ Fin d.size :=
  Sum.map (otherPort c k) (otherPort d l)

def rowIndex (c d : NoisyCircuit K) (k l : ℕ) : OtherRows c d k l → ℕ :=
  Sum.elim (fun i => i) fun j => (otherPorts c k).length + j

/-- What the ports pass on through the tie. -/
structure Via (c d : NoisyCircuit K) (k : Fin c.size) (l : Fin d.size) (t : K) : Prop where
  kc : ∀ i, viaTie (bothScattering c d) (.inl k) (.inr l) (.inl i) = d.S l l * c.S i k / t
  lc : ∀ i, viaTie (bothScattering c d) (.inr l) (.inl k) (.inl i) = c.S i k / t
  kd : ∀ i, viaTie (bothScattering c d) (.inl k) (.inr l) (.inr i) = d.S i l / t
  ld : ∀ i, viaTie (bothScattering c d) (.inr l) (.inl k) (.inr i) = c.S k k * d.S i l / t

omit [StarRing K] [DecidableEq K] in
theorem denominator_both (c d : NoisyCircuit K) (k : Fin c.size) (l : Fin d.size) :
    denominator (bothScattering c d) (.inl k) (.inr l) =
      connectedDenominator c.toCircuit d.toCircuit k l := by
  simp [denominator, bothScattering, connectedDenominator, Circuit.scattering]

omit [StarRing K] [DecidableEq K] in
theorem via_both (c d : NoisyCircuit K) (k : Fin c.size) (l : Fin d.size) :
    Via c d k l (connectedDenominator c.toCircuit d.toCircuit k l) := by
  have hk := denominator_both c d k l
  have hl := (denominator_swap (bothScattering c d) (.inl k) (.inr l)).trans hk
  constructor
  all_goals
    intro i
    simp only [viaTie, hk, hl]
    simp [bothScattering, Circuit.scattering]

omit [StarRing K] in
theorem connectTiny_eq (hd : connectedDenominator c.toCircuit d.toCircuit k l ≠ 0) :
    connectTiny c d k l = 1 := if_neg hd

omit [StarRing K] in
theorem connectT_eq (hd : connectedDenominator c.toCircuit d.toCircuit k l ≠ 0) :
    connectT c d k l = connectedDenominator c.toCircuit d.toCircuit k l := by
  simp [connectT, connectTiny_eq hd, connectedDenominator]

/-- The correlations after the join, at the ports of the two circuits. -/
def connected (c d : NoisyCircuit K) (k : Fin c.size) (l : Fin d.size) :
    Matrix (OtherRows c d k l) (OtherRows c d k l) K :=
  noiseMap (bothScattering c d) (otherPortOf c d k l) (.inl k) (.inr l) * bothCorrelation c d *
    (noiseMap (bothScattering c d) (otherPortOf c d k l) (.inl k) (.inr l)).conjTranspose

/-- What is written inside C, across D and C and inside D are those correlations. -/
theorem connected_eq (hd : connectedDenominator c.toCircuit d.toCircuit k l ≠ 0) :
    (∀ i j, insideC c d k l (otherPort c k i) (otherPort c k j) =
      connected c d k l (.inl i) (.inl j)) ∧
    (∀ i j, acrossDC c d k l (otherPort c k i) (otherPort d l j) =
      connected c d k l (.inl i) (.inr j)) ∧
    ∀ i j, insideD c d k l (otherPort d l i) (otherPort d l j) =
      connected c d k l (.inr i) (.inr j) := by
  have hvia := via_both c d k l
  refine ⟨fun i j => ?_, fun i j => ?_, fun i j => ?_⟩
  all_goals
    rw [connected, congruence_apply]
    simp only [otherPortOf, Sum.map_inl, Sum.map_inr, hvia.kc, hvia.lc, hvia.kd, hvia.ld, insideC,
      acrossDC, insideD, connectTiny_eq hd, connectT_eq hd]
    generalize connectedDenominator c.toCircuit d.toCircuit k l = t at hd
    simp only [bothCorrelation_c, bothCorrelation_d, bothCorrelation_cd, bothCorrelation_dc,
      star_div₀, star_mul', mul_one, mul_zero, add_zero, zero_add]
    field_simp
    ring

/-- The loops of `noiseConnect`: all columns of one matrix. -/
theorem noiseConnect_eq (E : ℕ → ℕ → K) (portC portD : ℕ → ℕ)
    (hC : otherPorts c k = (range' 0 (otherPorts c k).length).map portC)
    (hD : otherPorts d l = (range' (otherPorts c k).length (otherPorts d l).length).map portD)
    (hcc : ∀ i < (otherPorts c k).length, ∀ j < (otherPorts c k).length,
      E i j = insideC c d k l (portC i) (portC j))
    (hcd : ∀ i < (otherPorts c k).length, ∀ j, (otherPorts c k).length ≤ j →
      E i j = acrossDC c d k l (portC i) (portD j))
    (hdd : ∀ i, (otherPorts c k).length ≤ i → ∀ j, (otherPorts c k).length ≤ j →
      E i j = insideD c d k l (portD i) (portD j)) :
    noiseConnect c d k l = columns E
      (range ((otherPorts c k).length + (otherPorts d l).length)) fun _ => none := by
  have hblockC := halfColumns_eq (insideC c d k l) portC hcc fun _ => none
  rw [← hC] at hblockC
  rw [noiseConnect, hblockC, columns, columns, range_eq_range', ← range'_append_1,
    foldl_append, Nat.zero_add]
  generalize (range' 0 (otherPorts c k).length).foldl _ _ = n
  have hzip : (otherPorts d l).zipIdx (otherPorts c k).length =
      (range' (otherPorts c k).length (otherPorts d l).length).map fun j => (portD j, j) := by
    nth_rewrite 1 [hD]
    exact zipIdx_map_range' ..
  rw [hzip, foldl_map]
  refine foldl_ext _ _ _ fun n j hj => ?_
  obtain ⟨hlo, hhi⟩ := mem_range'_1.mp hj
  have hacross : (otherPorts c k).map (fun i1 => acrossDC c d k l i1 (portD j)) =
      (range' 0 (otherPorts c k).length).map fun i => E i j := by
    nth_rewrite 1 [hC]
    rw [map_map]
    exact map_congr_left fun i hi => (hcd i (by simpa using hi) j hlo).symm
  have hinside : (otherPorts d l).map (fun i1 => insideD c d k l i1 (portD j)) =
      (range' (otherPorts c k).length (otherPorts d l).length).map fun i => E i j := by
    nth_rewrite 1 [hD]
    rw [map_map]
    exact map_congr_left fun i hi => (hdd i (mem_range'_1.mp hi).1 j hlo).symm
  rw [acrossColumn_eq hacross (by omega), Nat.zero_add, halfColumn_eq hinside hlo hhi,
    mirrored_append _ (Nat.zero_le _) (by omega)]

theorem noiseConnect_exact (hC : c.correlation.IsHermitian) (hD : d.correlation.IsHermitian)
    (hd : connectedDenominator c.toCircuit d.toCircuit k l ≠ 0) :
    ∃ T,
      IsNoiseMap (bothScattering c d) (otherPortOf c d k l) (.inl k) (.inr l) T ∧
      (T * bothCorrelation c d * T.conjTranspose).IsHermitian ∧
      ∀ i j, noiseConnect c d k l (rowIndex c d k l i, rowIndex c d k l j) =
        some ((T * bothCorrelation c d * T.conjTranspose) i j) := by
  have hmem : ∀ (c : NoisyCircuit K) (k m : ℕ), m ∈ otherPorts c k ↔ m < c.size ∧ m ≠ k := by
    intro c k m
    simp [otherPorts, Circuit.ports]
  have hfound : ∀ (c : NoisyCircuit K) (k m : Fin c.size), m ≠ k → ∃ i, otherPort c k i = m := by
    intro c k m hm
    obtain ⟨i, hi, heq⟩ := getElem_of_mem ((hmem c k m).mpr ⟨m.isLt, fun h => hm (ext h)⟩)
    exact ⟨⟨i, hi⟩, ext heq⟩
  have hother : ∀ (c : NoisyCircuit K) (k : Fin c.size) i, otherPort c k i ≠ k := fun c k i h =>
    ((hmem c k _).mp (getElem_mem i.isLt)).2 (congrArg val h)
  have hboth := Matrix.IsHermitian.fromBlocks hC (Matrix.conjTranspose_zero) hD
  refine ⟨_, isNoiseMap (denominator_both c d k l ▸ hd) Sum.inl_ne_inr ?_ ?_,
    congruence_isHermitian hboth, fun i j => ?_⟩
  · rintro (m | m) hmk hml
    · obtain ⟨i, rfl⟩ := hfound c k m fun h => hmk (congrArg Sum.inl h)
      exact ⟨.inl i, rfl⟩
    · obtain ⟨i, rfl⟩ := hfound d l m fun h => hml (congrArg Sum.inr h)
      exact ⟨.inr i, rfl⟩
  · rintro (i | i)
    · exact ⟨fun h => hother c k i (Sum.inl_injective h), Sum.inl_ne_inr⟩
    · exact ⟨Sum.inr_ne_inl, fun h => hother d l i (Sum.inr_injective h)⟩
  let portC := fun i => (otherPorts c k).getD (i - 0) 0
  let portD := fun j => (otherPorts d l).getD (j - (otherPorts c k).length) 0
  have hportC : ∀ i : Fin (otherPorts c k).length, portC i = otherPort c k i := fun i =>
    getD_eq_getElem _ _ i.isLt
  have hportD : ∀ j : Fin (otherPorts d l).length,
      portD ((otherPorts c k).length + j) = otherPort d l j := by
    intro j
    show (otherPorts d l).getD _ 0 = _
    rw [Nat.add_sub_cancel_left]
    exact getD_eq_getElem _ _ j.isLt
  rw [noiseConnect_eq (fun i j =>
    if j < (otherPorts c k).length then insideC c d k l (portC i) (portC j)
    else if i < (otherPorts c k).length then acrossDC c d k l (portC i) (portD j)
    else insideD c d k l (portD i) (portD j)) portC portD (eq_map_range' _ 0 0)
      (eq_map_range' _ 0 _)
    (fun i hi j hj => if_pos hj)
    (fun i hi j hj => by rw [if_neg (by omega), if_pos hi])
    (fun i hi j hj => by rw [if_neg (by omega), if_neg (by omega)])]
  refine columns_eq_some (congruence_isHermitian hboth) (rowIndex c d k l) ?_ ?_ i j
  · rintro (i | i)
    · exact i.isLt.trans_le (Nat.le_add_right _ _)
    · exact Nat.add_lt_add_left i.isLt _
  · rintro (i | i) (j | j) hij
    · simp only [rowIndex, Sum.elim_inl, if_pos j.isLt, hportC]
      exact (connected_eq hd).1 i j
    · simp only [rowIndex, Sum.elim_inl, Sum.elim_inr, if_pos i.isLt,
        if_neg (by omega : ¬(otherPorts c k).length + (j : ℕ) < (otherPorts c k).length), hportC,
        hportD]
      exact (connected_eq hd).2.1 i j
    · simp only [rowIndex, Sum.elim_inl, Sum.elim_inr] at hij
      omega
    · simp only [rowIndex, Sum.elim_inr, hportD,
        if_neg (by omega : ¬(otherPorts c k).length + (j : ℕ) < (otherPorts c k).length),
        if_neg (by omega : ¬(otherPorts c k).length + (i : ℕ) < (otherPorts c k).length)]
      exact (connected_eq hd).2.2 i j

/-- **Both joins propagate noise correctly**: every entry of the result is
written, the matrix is Hermitian, and it is the congruence with the map of the
noise waves. -/
theorem noise_exact (K : Type*) [Field K] [StarRing K] [DecidableEq K] :
    (∀ (c : NoisyCircuit K) (k l : Fin c.size), c.correlation.IsHermitian → k ≠ l →
      interconnectDenominator c.toCircuit k l ≠ 0 →
      ∃ T,
        IsNoiseMap c.scattering (keptPort c k l) k l T ∧
        (T * c.correlation * T.conjTranspose).IsHermitian ∧
        ∀ i j : Fin (keptPorts c k l).length,
          noiseInterconnect c k l (i, j) = some ((T * c.correlation * T.conjTranspose) i j)) ∧
    (∀ (c d : NoisyCircuit K) (k : Fin c.size) (l : Fin d.size),
      c.correlation.IsHermitian → d.correlation.IsHermitian →
      connectedDenominator c.toCircuit d.toCircuit k l ≠ 0 →
      ∃ T : Matrix (OtherRows c d k l) (Fin c.size ⊕ Fin d.size) K,
        IsNoiseMap (bothScattering c d) (otherPortOf c d k l) (.inl k) (.inr l) T ∧
        (T * bothCorrelation c d * T.conjTranspose).IsHermitian ∧
        ∀ i j, noiseConnect c d k l (rowIndex c d k l i, rowIndex c d k l j) =
          some ((T * bothCorrelation c d * T.conjTranspose) i j)) :=
  ⟨fun _ _ _ hN hkl hd => noiseInterconnect_exact hN hkl hd,
    fun _ _ _ _ hC hD hd => noiseConnect_exact hC hD hd⟩

/-- A circuit that reflects a third of a wave, and passes on as much to every other
port, with independent sources. -/
noncomputable def splitter (size : ℕ) : NoisyCircuit ℂ where
  size := size
  node _ := "n"
  S _ _ := 1 / 3
  N i j := if i = j then 1 else 0

/-- Two ports of one circuit, and a port of each of two. -/
theorem noise_exact_splitters :
    (∃ T : Matrix (Fin (keptPorts (splitter 3) 0 1).length) (Fin (splitter 3).size) ℂ,
      ∀ i j : Fin (keptPorts (splitter 3) 0 1).length, noiseInterconnect (splitter 3) 0 1 (i, j) =
        some ((T * (splitter 3).correlation * T.conjTranspose) i j)) ∧
    ∃ T : Matrix (OtherRows (splitter 2) (splitter 2) 0 1)
        (Fin (splitter 2).size ⊕ Fin (splitter 2).size) ℂ,
      ∀ i j, noiseConnect (splitter 2) (splitter 2) 0 1
        (rowIndex (splitter 2) (splitter 2) 0 1 i, rowIndex (splitter 2) (splitter 2) 0 1 j) =
          some ((T * bothCorrelation (splitter 2) (splitter 2) * T.conjTranspose) i j) := by
  have hN : ∀ size, (splitter size).correlation.IsHermitian := by
    intro size
    refine Matrix.IsHermitian.ext fun i j => ?_
    show star (if (j : ℕ) = i then (1 : ℂ) else 0) = if (i : ℕ) = j then 1 else 0
    rw [apply_ite star, star_one, star_zero]
    exact if_congr eq_comm rfl rfl
  obtain ⟨T, -, -, hT⟩ := (noise_exact ℂ).1 (splitter 3) (0 : Fin 3) (1 : Fin 3) (hN 3)
    (zero_ne_one : (0 : Fin 3) ≠ 1)
    (by norm_num [interconnectDenominator, splitter])
  obtain ⟨T', -, -, hT'⟩ := (noise_exact ℂ).2 (splitter 2) (splitter 2) (0 : Fin 2) (1 : Fin 2)
    (hN 2) (hN 2) (by norm_num [connectedDenominator, splitter])
  exact ⟨⟨T, hT⟩, ⟨T', hT'⟩⟩

end Exact

end Qucs.Spar
