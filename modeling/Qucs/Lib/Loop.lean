/-
# Loops that may go on for ever

The body of a loop takes a state to a result, with which the loop returns, or to
the state of the next round. `rounds` runs it for a number of rounds. It has two
rules:

    what every round keeps holds in every round reached           (`rounds_keep`)
    and where a result is returned                                 (`rounds_result`)

    a natural number that no round increases, and that only
    *idle* rounds leave as it is                                   (`returns_iff`)

With the second a loop returns iff it does not end in idle rounds only; a
loop without idle rounds returns (`returns`).
-/
import Mathlib.Order.WellFounded
import Mathlib.Tactic.Common

namespace Lib.Loop

variable {σ ρ : Type*} {body : σ → ρ ⊕ σ}

/-- At most so many rounds. -/
def rounds (body : σ → ρ ⊕ σ) : ℕ → σ → ρ ⊕ σ
  | 0, s => .inr s
  | n + 1, s =>
    match body s with
    | .inl r => .inl r
    | .inr s' => rounds body n s'

theorem rounds_inl {s : σ} {r : ρ} (h : body s = .inl r) (n : ℕ) :
    rounds body (n + 1) s = .inl r := by simp only [rounds, h]

theorem rounds_inr {s s' : σ} (h : body s = .inr s') (n : ℕ) :
    rounds body (n + 1) s = rounds body n s' := by simp only [rounds, h]

theorem rounds_add {s s' : σ} : ∀ {m : ℕ}, rounds body m s = .inr s' →
    ∀ n, rounds body (m + n) s = rounds body n s'
  | 0, h, n => by
    obtain rfl : s = s' := by simpa [rounds] using h
    rw [Nat.zero_add]
  | m + 1, h, n => by
    cases hb : body s with
    | inl r => simp [rounds_inl hb] at h
    | inr s₁ =>
      rw [rounds_inr hb] at h
      rw [Nat.add_right_comm, rounds_inr hb, rounds_add h n]

theorem rounds_of_le {r : ρ} : ∀ {n m : ℕ} {s : σ}, rounds body n s = .inl r → n ≤ m →
    rounds body m s = .inl r
  | 0, _, _, h, _ => by simp [rounds] at h
  | _ + 1, 0, _, _, hle => by omega
  | n + 1, m + 1, s, h, hle => by
    cases hb : body s with
    | inl r' =>
      rw [rounds_inl hb] at h ⊢
      exact h
    | inr s' =>
      rw [rounds_inr hb] at h ⊢
      exact rounds_of_le h (Nat.le_of_succ_le_succ hle)

/-- A loop of which every round has another one. -/
theorem rounds_endless {I : σ → Prop} (h : ∀ s, I s → ∃ s', body s = .inr s' ∧ I s') {s : σ}
    (hs : I s) (n : ℕ) : ∃ s', rounds body n s = .inr s' := by
  induction n generalizing s with
  | zero => exact ⟨s, rfl⟩
  | succ n ih =>
    obtain ⟨s₁, hb, hs₁⟩ := h s hs
    rw [rounds_inr hb]
    exact ih hs₁

section Rules

variable {I : σ → Prop} (hI : ∀ s s', I s → body s = .inr s' → I s')
include hI

theorem rounds_keep {s s' : σ} (hs : I s) {n : ℕ} (h : rounds body n s = .inr s') : I s' := by
  induction n generalizing s with
  | zero =>
    obtain rfl : s = s' := by simpa [rounds] using h
    exact hs
  | succ n ih =>
    cases hb : body s with
    | inl r => simp [rounds_inl hb] at h
    | inr s₁ => exact ih (hI s s₁ hs hb) (by rwa [rounds_inr hb] at h)

theorem rounds_result {s : σ} (hs : I s) {n : ℕ} {r : ρ} (h : rounds body n s = .inl r) :
    ∃ k s', I s' ∧ rounds body k s = .inr s' ∧ body s' = .inl r := by
  induction n generalizing s with
  | zero => simp [rounds] at h
  | succ n ih =>
    cases hb : body s with
    | inl r' =>
      rw [rounds_inl hb] at h
      exact ⟨0, s, hs, rfl, hb.trans h⟩
    | inr s₁ =>
      obtain ⟨k, s', hs', hk, hlast⟩ := ih (hI s s₁ hs hb) (by rwa [rounds_inr hb] at h)
      exact ⟨k + 1, s', hs', (rounds_inr hb k).trans hk, hlast⟩

variable (idle : σ → Prop) (μ : σ → ℕ)
  (hle : ∀ s s', I s → body s = .inr s' → μ s' ≤ μ s)
  (hlt : ∀ s s', I s → body s = .inr s' → ¬ idle s → μ s' < μ s)
include hle

theorem rounds_measure_le {s s' : σ} (hs : I s) {n : ℕ} (h : rounds body n s = .inr s') :
    μ s' ≤ μ s :=
  (rounds_keep (I := fun t => I t ∧ μ t ≤ μ s)
    (fun t t' ht hb => ⟨hI t t' ht.1 hb, (hle t t' ht.1 hb).trans ht.2⟩) ⟨hs, le_rfl⟩ h).2

include hlt

/-- **A loop returns unless it reaches a round from which on all are idle.** -/
theorem returns_iff {s : σ} (hs : I s) : (∃ n r, rounds body n s = .inl r) ↔
    ¬ ∃ n s', rounds body n s = .inr s' ∧ ∀ k, ∃ s'', rounds body k s' = .inr s'' ∧ idle s'' := by
  constructor
  · rintro ⟨n, r, hr⟩ ⟨m, s', hm, hidle⟩
    obtain ⟨s'', hk, -⟩ := hidle n
    have hlong := rounds_of_le hr (Nat.le_add_left n m)
    rw [rounds_add hm, hk] at hlong
    cases hlong
  · intro h
    by_contra hnever
    have hgoes : ∀ n, ∃ s', rounds body n s = .inr s' := by
      intro n
      cases hn : rounds body n s with
      | inl r => exact absurd ⟨n, r, hn⟩ hnever
      | inr s' => exact ⟨s', rfl⟩
    choose t ht using hgoes
    let n := Function.argmin (μ ∘ t)
    have hfrom (k : ℕ) : rounds body k (t n) = .inr (t (n + k)) := by rw [← rounds_add (ht n), ht]
    refine h ⟨n, t n, ht n, fun k => ⟨t (n + k), hfrom k, ?_⟩⟩
    by_contra hbusy
    have hb : body (t (n + k)) = .inr (t (n + k + 1)) := by
      have hnext := ht (n + k + 1)
      rw [rounds_add (ht (n + k)) 1] at hnext
      cases hb : body (t (n + k)) with
      | inl r => simp [rounds_inl hb] at hnext
      | inr t' => exact (rounds_inr hb 0).symm.trans hnext
    have hless := hlt _ _ (rounds_keep hI hs (ht (n + k))) hb hbusy
    have hmin : μ (t n) ≤ μ (t (n + k + 1)) := Function.argmin_le (μ ∘ t) (n + k + 1)
    have hkept := rounds_measure_le hI μ hle (rounds_keep hI hs (ht n)) (hfrom k)
    omega

end Rules

theorem returns {I : σ → Prop} (hI : ∀ s s', I s → body s = .inr s' → I s') (μ : σ → ℕ)
    (hlt : ∀ s s', I s → body s = .inr s' → μ s' < μ s) {s : σ} (hs : I s) :
    ∃ n r, rounds body n s = .inl r := by
  refine (returns_iff hI (fun _ => False) μ (fun s s' h hb => (hlt s s' h hb).le)
    (fun s s' h hb _ => hlt s s' h hb) hs).mpr ?_
  rintro ⟨_, _, _, h⟩
  obtain ⟨_, _, hfalse⟩ := h 0
  exact hfalse

end Lib.Loop
