/-
# Axis-parallel segments

A segment is given by its two ends. It is ordered if it is horizontal or vertical,
has a length, and its first end comes first. What is used about ordered segments:

    cut at an inner point    the pieces are ordered, have no more than the cut in
                             common and together what the whole has
    lengthened by another    what is inside or overlaps the result is inside or
    of the same line         overlaps one of the two

`Overlap` says by coordinates that two segments have more than a point in common
(`overlap_iff`).
-/
import Mathlib.Data.Int.Order.Basic
import Mathlib.Tactic.Common

namespace Lib.Segments

inductive Axis where
  | horizontal
  | vertical
  deriving DecidableEq, Repr

inductive Side where
  | one
  | two
  deriving DecidableEq, Repr

def Side.other : Side → Side
  | .one => .two
  | .two => .one

structure Segment where
  x1 : ℤ
  y1 : ℤ
  x2 : ℤ
  y2 : ℤ
  deriving DecidableEq, Repr

namespace Segment

variable (s : Segment)

def isHorizontal : Bool := s.y1 = s.y2

def axis : Axis := if s.isHorizontal then .horizontal else .vertical

/-- The coordinate along an axis of one of the ends. -/
def coord : Side → Axis → ℤ
  | .one, .horizontal => s.x1
  | .one, .vertical => s.y1
  | .two, .horizontal => s.x2
  | .two, .vertical => s.y2

/-- One of the ends moved along an axis. -/
def move (a : ℤ) : Side → Axis → Segment
  | .one, .horizontal => { s with x1 := a }
  | .one, .vertical => { s with y1 := a }
  | .two, .horizontal => { s with x2 := a }
  | .two, .vertical => { s with y2 := a }

def endpoint : Side → ℤ × ℤ
  | .one => (s.x1, s.y1)
  | .two => (s.x2, s.y2)

def Ordered : Prop := s.y1 = s.y2 ∧ s.x1 < s.x2 ∨ s.x1 = s.x2 ∧ s.y1 < s.y2

def Covers (p : ℤ × ℤ) : Prop :=
  s.x1 ≤ p.1 ∧ p.1 ≤ s.x2 ∧ s.y1 ≤ p.2 ∧ p.2 ≤ s.y2

/-- On the segment and at none of its ends. -/
def Inside (p : ℤ × ℤ) : Prop :=
  s.y1 = p.2 ∧ s.y2 = p.2 ∧ s.x1 < p.1 ∧ p.1 < s.x2 ∨
    s.x1 = p.1 ∧ s.x2 = p.1 ∧ s.y1 < p.2 ∧ p.2 < s.y2

def Overlap (s t : Segment) : Prop :=
  s.y1 = s.y2 ∧ t.y1 = t.y2 ∧ s.y1 = t.y1 ∧ s.x1 < t.x2 ∧ t.x1 < s.x2 ∨
    s.x1 = s.x2 ∧ t.x1 = t.x2 ∧ s.x1 = t.x1 ∧ s.y1 < t.y2 ∧ t.y1 < s.y2

def length : ℕ := (s.x2 - s.x1 + (s.y2 - s.y1)).toNat

instance (s : Segment) : Decidable s.Ordered := inferInstanceAs (Decidable (_ ∨ _))
instance (s : Segment) (p : ℤ × ℤ) : Decidable (s.Covers p) := inferInstanceAs (Decidable (_ ∧ _))
instance (s : Segment) (p : ℤ × ℤ) : Decidable (s.Inside p) := inferInstanceAs (Decidable (_ ∨ _))
instance (s t : Segment) : Decidable (s.Overlap t) := inferInstanceAs (Decidable (_ ∨ _))

/-- The end `σ` of `s` put to the end `σ` of `t`. -/
def stretch (s t : Segment) : Side → Segment
  | .one => ⟨t.x1, t.y1, s.x2, s.y2⟩
  | .two => ⟨s.x1, s.y1, t.x2, t.y2⟩

/-- The end `σ` of `s` put to the other end of `t`. -/
def clip (s t : Segment) : Side → Segment
  | .one => ⟨t.x2, t.y2, s.x2, s.y2⟩
  | .two => ⟨s.x1, s.y1, t.x1, t.y1⟩

def upTo (p : ℤ × ℤ) : Segment := ⟨s.x1, s.y1, p.1, p.2⟩

def onFrom (p : ℤ × ℤ) : Segment := ⟨p.1, p.2, s.x2, s.y2⟩

variable {s t u : Segment} {p q : ℤ × ℤ} {σ : Side}

theorem isHorizontal_eq_iff : s.isHorizontal = t.isHorizontal ↔ (s.y1 = s.y2 ↔ t.y1 = t.y2) := by
  simp [isHorizontal]

theorem Overlap.symm (h : s.Overlap t) : t.Overlap s := by
  unfold Overlap at *
  omega

theorem Overlap.isHorizontal_eq (h : s.Overlap t) (hs : s.Ordered) (ht : t.Ordered) :
    s.isHorizontal = t.isHorizontal := by
  unfold Overlap Ordered at *
  rw [isHorizontal_eq_iff]
  omega

theorem covers_iff (hs : s.Ordered) :
    s.Covers p ↔ p = s.endpoint .one ∨ p = s.endpoint .two ∨ s.Inside p := by
  unfold Covers Inside Ordered at *
  simp only [endpoint, Prod.ext_iff]
  omega

theorem Inside.covers (hs : s.Ordered) (h : s.Inside p) : s.Covers p :=
  (covers_iff hs).mpr (.inr (.inr h))

theorem Inside.ne_endpoint (h : s.Inside p) (σ : Side) : p ≠ s.endpoint σ := by
  unfold Inside at h
  cases σ <;>
  · simp only [endpoint, ne_eq, Prod.ext_iff]
    omega

theorem covers_endpoint (hs : s.Ordered) (σ : Side) : s.Covers (s.endpoint σ) := by
  rw [covers_iff hs]
  cases σ
  · exact .inl rfl
  · exact .inr (.inl rfl)

theorem endpoint_ne (hs : s.Ordered) : s.endpoint .one ≠ s.endpoint .two := by
  unfold Ordered at hs
  simp only [endpoint, ne_eq, Prod.ext_iff]
  omega

theorem Ordered.length_pos (hs : s.Ordered) : 0 < s.length := by
  unfold length
  rcases hs with hs | hs <;> omega

/-! ## Two segments of one line -/

/-- Segments that overlap a third one over the same of its ends overlap. -/
theorem Overlap.of_covers (hu : u.Ordered) (hsu : s.Overlap u) (htu : t.Overlap u)
    (hsp : s.Covers (u.endpoint σ)) (htp : t.Covers (u.endpoint σ)) : s.Overlap t := by
  unfold Covers at hsp htp
  cases σ <;>
  · simp only [endpoint] at hsp htp
    rcases hsu with hsu | hsu <;> rcases htu with htu | htu <;> rcases hu with hu | hu <;>
      unfold Overlap <;> omega

theorem overlap_iff (hs : s.Ordered) (ht : t.Ordered) :
    s.Overlap t ↔ ∃ p q, p ≠ q ∧ (s.Covers p ∧ t.Covers p) ∧ s.Covers q ∧ t.Covers q := by
  constructor
  · intro h
    refine ⟨(max s.x1 t.x1, max s.y1 t.y1), (min s.x2 t.x2, min s.y2 t.y2), ?_⟩
    unfold Covers
    simp only [ne_eq, Prod.mk.injEq]
    rcases h with h | h <;> rcases hs with hs | hs <;> rcases ht with ht | ht <;> omega
  · rintro ⟨⟨px, py⟩, ⟨qx, qy⟩, hne, ⟨hsp, htp⟩, hsq, htq⟩
    unfold Covers at hsp htp hsq htq
    simp only [ne_eq, Prod.mk.injEq] at hne
    dsimp only at hsp htp hsq htq
    rcases hs with hs | hs <;> rcases ht with ht | ht <;> unfold Overlap <;> omega

/-- The other case of two segments over the same point of one line. -/
theorem Overlap.of_inside (ht : t.Ordered) (h : s.isHorizontal = t.isHorizontal)
    (hsp : s.Inside p) (htp : t.Covers p) : s.Overlap t := by
  rw [isHorizontal_eq_iff] at h
  unfold Covers at htp
  rcases hsp with hsp | hsp <;> rcases ht with ht | ht <;> unfold Overlap <;> omega

/-- Two segments of one line that begin, or end, at the same point. -/
theorem Overlap.of_endpoint (hs : s.Ordered) (ht : t.Ordered)
    (h : s.isHorizontal = t.isHorizontal) (hp : s.endpoint σ = t.endpoint σ) : s.Overlap t := by
  rw [isHorizontal_eq_iff] at h
  cases σ <;>
  · simp only [endpoint, Prod.ext_iff] at hp
    rcases hs with hs | hs <;> rcases ht with ht | ht <;> unfold Overlap <;> omega

/-- Of two segments of one line the one begins where the other ends. -/
theorem not_overlap_of_endpoint (hs : s.Ordered) (ht : t.Ordered)
    (hp : s.endpoint σ.other = t.endpoint σ) : ¬s.Overlap t := by
  cases σ <;>
  · simp only [endpoint, Side.other, Prod.ext_iff] at hp
    rintro (ho | ho) <;> rcases hs with hs | hs <;> rcases ht with ht | ht <;> omega

/-- Where one segment begins at the end of the other, it does not end at its
beginning. -/
theorem endpoint_ne_of_endpoint_eq (hs : s.Ordered) (ht : t.Ordered)
    (hp : s.endpoint .two = t.endpoint .one) : s.endpoint .one ≠ t.endpoint .two := by
  simp only [endpoint, ne_eq, Prod.ext_iff] at hp ⊢
  rcases hs with hs | hs <;> rcases ht with ht | ht <;> omega

section Stretch

variable (hs : s.Ordered) (ht : t.Ordered) (h : s.isHorizontal = t.isHorizontal)
  (hc : t.Covers (s.endpoint σ))
include hs ht h hc

theorem Ordered.stretch : (s.stretch t σ).Ordered := by
  rw [isHorizontal_eq_iff] at h
  unfold Covers at hc
  cases σ <;>
  · simp only [endpoint] at hc
    rcases hs with hs | hs <;> rcases ht with ht | ht <;> unfold Ordered <;>
      simp only [Segment.stretch] <;> omega

omit h in
theorem Overlap.of_stretch (hu : u.Ordered) (ho : u.Overlap (s.stretch t σ)) :
    u.Overlap s ∨ u.Overlap t := by
  unfold Covers at hc
  cases σ <;>
  · simp only [endpoint] at hc
    rcases hs with hs | hs <;> rcases ht with ht | ht <;> rcases ho with ho | ho <;>
      simp only [Segment.stretch] at ho <;> rcases hu with hu | hu <;> unfold Overlap <;> omega

omit h in
theorem Inside.of_stretch (hq : (s.stretch t σ).Inside q) :
    s.Inside q ∨ t.Inside q ∨ q = s.endpoint σ := by
  unfold Covers at hc
  cases σ <;>
  · simp only [endpoint, Prod.ext_iff] at hc ⊢
    rcases hs with hs | hs <;> rcases ht with ht | ht <;> rcases hq with hq | hq <;>
      simp only [Segment.stretch] at hq <;> unfold Inside <;> omega

end Stretch

section Clip

variable (hs : s.Ordered) (ht : t.Ordered) (h : s.isHorizontal = t.isHorizontal)
  (hc : t.Covers (s.endpoint σ)) (hn : ¬t.Covers (s.endpoint σ.other))
include hs ht h hc hn

theorem Ordered.clip : (s.clip t σ).Ordered := by
  rw [isHorizontal_eq_iff] at h
  unfold Covers at hc hn
  cases σ <;>
  · simp only [endpoint, Side.other] at hc hn
    rcases hs with hs | hs <;> rcases ht with ht | ht <;> unfold Ordered <;>
      simp only [Segment.clip] <;> omega

omit h in
theorem Overlap.of_clip (ho : u.Overlap (s.clip t σ)) : u.Overlap s := by
  unfold Covers at hc hn
  cases σ <;>
  · simp only [endpoint, Side.other] at hc hn
    rcases hs with hs | hs <;> rcases ht with ht | ht <;> rcases ho with ho | ho <;>
      simp only [Segment.clip] at ho <;> unfold Overlap <;> omega

omit h in
theorem not_overlap_clip : ¬t.Overlap (s.clip t σ) := by
  unfold Covers at hc hn
  cases σ <;>
  · simp only [endpoint, Side.other] at hc hn
    rintro (ho | ho) <;> rcases hs with hs | hs <;> rcases ht with ht | ht <;>
      simp only [Segment.clip] at ho <;> omega

end Clip

theorem endpoint_stretch : (s.stretch t σ).endpoint σ = t.endpoint σ := by cases σ <;> rfl

theorem endpoint_stretch_other : (s.stretch t σ).endpoint σ.other = s.endpoint σ.other := by
  cases σ <;> rfl

theorem endpoint_clip : (s.clip t σ).endpoint σ = t.endpoint σ.other := by cases σ <;> rfl

theorem endpoint_clip_other : (s.clip t σ).endpoint σ.other = s.endpoint σ.other := by
  cases σ <;> rfl

/-- What reaches over the end that is stretched reaches it. -/
theorem Overlap.covers_of_stretch (hs : s.Ordered) (ht : t.Ordered) (hc : t.Covers (s.endpoint σ))
    (ho : u.Overlap s) (hu : u.Covers (t.endpoint σ)) : u.Covers (s.endpoint σ) := by
  unfold Covers at *
  cases σ <;>
  · simp only [endpoint] at *
    rcases hs with hs | hs <;> rcases ht with ht | ht <;> rcases ho with ho | ho <;> omega

/-- Segments of one line that have an end of the one in common and no more. -/
theorem endpoint_eq_of_covers (ht : t.Ordered) (hu : u.Ordered)
    (h : u.isHorizontal = t.isHorizontal) (ho : ¬u.Overlap t)
    (hc : u.Covers (t.endpoint σ.other)) : t.endpoint σ.other = u.endpoint σ := by
  rw [isHorizontal_eq_iff] at h
  unfold Covers Overlap at *
  cases σ <;>
  · simp only [endpoint, Side.other, Prod.ext_iff] at *
    rcases hu with hu | hu <;> rcases ht with ht | ht <;> omega

/-! ## Coordinates along the axis -/

theorem axis_eq_iff : s.axis = t.axis ↔ s.isHorizontal = t.isHorizontal := by
  unfold axis
  cases s.isHorizontal <;> cases t.isHorizontal <;> simp

section Coordinates

variable (hs : s.Ordered) (ht : t.Ordered) (h : s.isHorizontal = t.isHorizontal)
include hs ht h

theorem move_coord_eq_stretch (hc : t.Covers (s.endpoint σ)) :
    s.move (t.coord σ s.axis) σ s.axis = s.stretch t σ := by
  rw [isHorizontal_eq_iff] at h
  unfold Covers at hc
  unfold axis isHorizontal
  cases σ <;> simp only [endpoint] at hc <;>
  · rcases hs with hs | hs <;> rcases ht with ht | ht <;> split_ifs <;>
      simp_all [move, coord, stretch] <;> omega

theorem move_coord_eq_clip (hc : t.Covers (s.endpoint σ)) :
    s.move (t.coord σ.other s.axis) σ s.axis = s.clip t σ := by
  rw [isHorizontal_eq_iff] at h
  unfold Covers at hc
  unfold axis isHorizontal
  cases σ <;> simp only [endpoint] at hc <;>
  · rcases hs with hs | hs <;> rcases ht with ht | ht <;> split_ifs <;>
      simp_all [move, coord, clip, Side.other] <;> omega

theorem coord_le_coord_iff (hc : t.Covers (s.endpoint .one)) :
    s.coord .two s.axis ≤ t.coord .two s.axis ↔ t.Covers (s.endpoint .two) := by
  rw [isHorizontal_eq_iff] at h
  unfold Covers at *
  unfold axis isHorizontal
  simp only [endpoint] at hc ⊢
  rcases hs with hs | hs <;> rcases ht with ht | ht <;> split_ifs <;> simp_all [coord] <;> omega

/-- Of two segments that meet where the second begins, the first comes from before or
begins there too. -/
theorem coord_one_lt_iff {τ : Side} (hp : t.endpoint τ = s.endpoint .one) :
    t.coord .one s.axis < s.coord .one s.axis ↔ τ = .two := by
  rw [isHorizontal_eq_iff] at h
  unfold axis isHorizontal
  cases τ <;> simp only [endpoint, Prod.ext_iff] at hp <;>
  · rcases hs with hs | hs <;> rcases ht with ht | ht <;> split_ifs <;> simp_all [coord]

theorem coord_two_lt_iff {τ : Side} (hp : t.endpoint τ = s.endpoint .two) :
    s.coord .two s.axis < t.coord .two s.axis ↔ τ = .one := by
  rw [isHorizontal_eq_iff] at h
  unfold axis isHorizontal
  cases τ <;> simp only [endpoint, Prod.ext_iff] at hp <;>
  · rcases hs with hs | hs <;> rcases ht with ht | ht <;> split_ifs <;> simp_all [coord]

end Coordinates

/-! ## The two parts at an inner point -/

section Cut

variable (hp : s.Inside p)
include hp

theorem Inside.ordered_upTo : (s.upTo p).Ordered := by
  rcases hp with hp | hp <;> unfold Ordered <;> simp only [upTo] <;> omega

theorem Inside.ordered_onFrom : (s.onFrom p).Ordered := by
  rcases hp with hp | hp <;> unfold Ordered <;> simp only [onFrom] <;> omega

theorem Inside.length_add : (s.upTo p).length + (s.onFrom p).length = s.length := by
  unfold length
  rcases hp with hp | hp <;> simp only [upTo, onFrom] <;> omega

theorem Inside.of_upTo (hq : (s.upTo p).Inside q) : s.Inside q ∧ q ≠ p := by
  unfold upTo Inside at *
  simp only [ne_eq, Prod.ext_iff] at *
  omega

theorem Inside.of_onFrom (hq : (s.onFrom p).Inside q) : s.Inside q ∧ q ≠ p := by
  unfold onFrom Inside at *
  simp only [ne_eq, Prod.ext_iff] at *
  omega

theorem Overlap.of_upTo (ht : t.Ordered) (ho : t.Overlap (s.upTo p)) : t.Overlap s := by
  rcases hp with hp | hp <;> rcases ho with ho | ho <;> rcases ht with ht | ht <;>
    simp only [upTo] at ho <;> unfold Overlap <;> omega

theorem Overlap.of_onFrom (ht : t.Ordered) (ho : t.Overlap (s.onFrom p)) : t.Overlap s := by
  rcases hp with hp | hp <;> rcases ho with ho | ho <;> rcases ht with ht | ht <;>
    simp only [onFrom] at ho <;> unfold Overlap <;> omega

omit hp in
theorem Inside.not_onFrom (hq : (s.upTo p).Inside q) : ¬(s.onFrom p).Inside q := by
  unfold upTo onFrom Inside at *
  simp only at hq ⊢
  omega

omit hp in
theorem not_overlap_upTo_onFrom : ¬(s.upTo p).Overlap (s.onFrom p) := by
  unfold upTo onFrom Overlap
  simp only
  omega

end Cut

end Segment

end Lib.Segments
