import Mathlib.Order.WellFounded

/-!
# Loop rules

Invariant rules for loops written as folds over an index range, upwards or downwards, with a body
that may fail, and a rule for iterations that lower a measure whenever they change something.
-/

namespace Loops

open List

variable {σ α β : Type}

/-- A step that has succeeded. -/
theorem some_bind (a : α) (f : α → Option β) : (some a >>= f) = f a := rfl

theorem exists_of_mem_mapM {f : α → Option β} {l : List α} {l' : List β} {b : β}
    (h : l.mapM f = some l') (hb : b ∈ l') : ∃ a ∈ l, f a = some b := by
  induction l generalizing l' with
  | nil => cases h; cases hb
  | cons a l ih =>
    rw [mapM_cons] at h
    obtain ⟨c, hc, h⟩ := Option.bind_eq_some_iff.1 h
    obtain ⟨l1, hl1, h⟩ := Option.bind_eq_some_iff.1 h
    cases h
    rcases mem_cons.1 hb with rfl | hb
    · exact ⟨a, .head _, hc⟩
    · obtain ⟨a', ha', h⟩ := ih hl1 hb
      exact ⟨a', .tail _ ha', h⟩

section
variable (f : σ → Nat → Option σ) (P : Nat → σ → Prop)
include f P

/-- Total correctness of a loop over `m, …, m + n - 1`: every iteration succeeds and advances `P`. -/
theorem foldlM_range' {m n : Nat} {s : σ} (h0 : P m s)
    (hst : ∀ i, m ≤ i → i < m + n → ∀ s, P i s → ∃ s', f s i = some s' ∧ P (i + 1) s') :
    ∃ s', (List.range' m n).foldlM f s = some s' ∧ P (m + n) s' := by
  induction n generalizing m s with
  | zero => exact ⟨s, rfl, h0⟩
  | succ n ih =>
    obtain ⟨s1, h1, hP1⟩ := hst m (by omega) (by omega) s h0
    obtain ⟨s2, h2, hP2⟩ := ih hP1 fun i hi hi' => hst i (by omega) (by omega)
    refine ⟨s2, ?_, by rwa [show m + (n + 1) = m + 1 + n by omega]⟩
    rw [range'_succ, foldlM_cons, h1]
    exact h2

/-- Total correctness of a counted loop. -/
theorem foldlM_range {n : Nat} {s : σ} (h0 : P 0 s)
    (hst : ∀ i < n, ∀ s, P i s → ∃ s', f s i = some s' ∧ P (i + 1) s') :
    ∃ s', (List.range n).foldlM f s = some s' ∧ P n s' := by
  have h := @foldlM_range' σ f P 0 n s h0 fun i _ hi => hst i (by omega)
  rwa [← range_eq_range', Nat.zero_add] at h

/-- Total correctness of a loop that counts down from `n - 1` to 0. -/
theorem foldlM_range_reverse {n : Nat} {s : σ}
    (hn : P n s) (hst : ∀ i < n, ∀ s, P (i + 1) s → ∃ s', f s i = some s' ∧ P i s') :
    ∃ s', (List.range n).reverse.foldlM f s = some s' ∧ P 0 s' := by
  induction n generalizing s with
  | zero => exact ⟨s, rfl, hn⟩
  | succ n ih =>
    obtain ⟨s1, h1, hP1⟩ := hst n (by omega) s hn
    obtain ⟨s2, h2, hP2⟩ := ih hP1 fun i hi => hst i (by omega)
    refine ⟨s2, ?_, hP2⟩
    rw [range_succ, reverse_append, reverse_singleton, singleton_append, foldlM_cons, h1]
    exact h2

end

/-- A sequence whose every step keeps the value or lowers a measure changes finitely often. -/
theorem eventually_constant (measure : α → Nat) {f : Nat → α}
    (hst : ∀ i, f (i + 1) = f i ∨ measure (f (i + 1)) < measure (f i)) :
    ∃ N, ∀ i, N ≤ i → f i = f N := by
  obtain ⟨N, hN⟩ : ∃ N, ∀ i, measure (f N) ≤ measure (f i) :=
    ⟨_, fun i => Function.argmin_le (fun i => measure (f i)) i⟩
  refine ⟨N, fun i hi => ?_⟩
  induction i, hi using Nat.le_induction with
  | base => rfl
  | succ i _ ih =>
    rcases hst i with h | h
    · rw [h, ih]
    · rw [ih] at h
      exact absurd (hN (i + 1)) (Nat.not_le.2 h)

end Loops
