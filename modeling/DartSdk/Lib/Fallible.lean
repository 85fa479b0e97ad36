import Mathlib.Data.List.Basic

/-!
# Computations that may fail

Inversion of a successful run in `Except`: what the parts of a `map`, a `bind` or a `foldlM` gave.
The other way round, `Succeeds` says that a computation has a result with a property, and `Ends`
says what holds of its result or of its error.
-/

namespace Fallible

open List

variable {ε α β σ ι : Type} {x : Except ε α} {f : σ → ι → Except ε σ} {s s' : σ} {xs : List ι}
  {P : α → Prop} {Q : β → Prop} {k : α → Except ε β} {E E' : ε → Prop}

theorem map_eq_ok {f : α → β} {b : β} (h : x.map f = .ok b) : ∃ a, x = .ok a ∧ f a = b := by
  cases x with
  | error e => cases h
  | ok a => cases h; exact ⟨a, rfl, rfl⟩

theorem bind_eq_ok {f : α → Except ε β} {b : β} (h : x.bind f = .ok b) :
    ∃ a, x = .ok a ∧ f a = .ok b := by
  cases x with
  | error e => cases h
  | ok a => exact ⟨a, rfl, h⟩

theorem ok_bind (a : α) : (Except.ok a >>= k) = k a := rfl

theorem foldlM_cons_eq_ok {x : ι} (h : (x :: xs).foldlM f s = .ok s') :
    ∃ t, f s x = .ok t ∧ xs.foldlM f t = .ok s' := by
  rw [foldlM_cons] at h
  exact bind_eq_ok h

theorem foldlM_append_eq_ok {ys : List ι} (h : (xs ++ ys).foldlM f s = .ok s') :
    ∃ t, xs.foldlM f s = .ok t ∧ ys.foldlM f t = .ok s' := by
  rw [foldlM_append] at h
  exact bind_eq_ok h

theorem foldlM_append_of_ok {ys : List ι} {t : σ} (h : xs.foldlM f s = .ok t) :
    (xs ++ ys).foldlM f s = ys.foldlM f t := by
  rw [foldlM_append, h]
  rfl

/-- A run that fails does so at one of the elements. -/
theorem foldlM_eq_error {e : ε} (h : xs.foldlM f s = .error e) :
    ∃ n t, (xs.take n).foldlM f s = .ok t ∧ (xs.take (n + 1)).foldlM f s = .error e := by
  induction xs generalizing s with
  | nil => cases h
  | cons x xs ih =>
    rw [foldlM_cons] at h
    cases hx : f s x with
    | error e' =>
      rw [hx] at h
      refine ⟨0, s, rfl, ?_⟩
      rw [take_succ_cons, foldlM_cons, hx]
      exact h
    | ok s' =>
      rw [hx, ok_bind] at h
      obtain ⟨n, t, hok, her⟩ := ih h
      refine ⟨n + 1, t, ?_⟩
      simp only [take_succ_cons, foldlM_cons, hx, ok_bind]
      exact ⟨hok, her⟩

/-- **What every step keeps** holds after a run. -/
theorem foldlM_keeps {P : σ → Prop} (hst : ∀ {s s' x}, x ∈ xs → P s → f s x = .ok s' → P s')
    (hs : P s) (h : xs.foldlM f s = .ok s') : P s' := by
  induction xs generalizing s with
  | nil => cases h; exact hs
  | cons x xs ih =>
    obtain ⟨t, ht, h⟩ := foldlM_cons_eq_ok h
    exact ih (fun hx => hst (mem_cons_of_mem _ hx)) (hst mem_cons_self hs ht) h

/-! ## Computations that succeed -/

/-- The computation has a result, and it has the property. -/
def Succeeds (x : Except ε α) (P : α → Prop) : Prop := ∃ a, x = .ok a ∧ P a

theorem Succeeds.pure {a : α} (h : P a) : Succeeds (.ok a : Except ε α) P :=
  ⟨a, rfl, h⟩

theorem Succeeds.bind (hx : Succeeds x P)
    (hk : ∀ a, P a → Succeeds (k a) Q) : Succeeds (x >>= k) Q := by
  obtain ⟨a, rfl, ha⟩ := hx
  exact hk a ha

theorem Succeeds.imp {Q : α → Prop} (hx : Succeeds x P) (h : ∀ a, P a → Q a) : Succeeds x Q := by
  obtain ⟨a, hxa, ha⟩ := hx
  exact ⟨a, hxa, h a ha⟩

theorem Succeeds.ite {c : Prop} [Decidable c] {y : Except ε α} (hx : c → Succeeds x P)
    (hy : ¬ c → Succeeds y P) : Succeeds (if c then x else y) P := by
  split
  next h => exact hx h
  next h => exact hy h

theorem Succeeds.mapM {f : α → Except ε β} {R : α → β → Prop} {l : List α}
    (h : ∀ a ∈ l, Succeeds (f a) (R a)) : Succeeds (l.mapM f) (List.Forall₂ R l) := by
  induction l with
  | nil => exact ⟨[], rfl, .nil⟩
  | cons a l ih =>
    obtain ⟨b, hb, hR⟩ := h a mem_cons_self
    obtain ⟨bs, hbs, hRs⟩ := ih fun a ha => h a (mem_cons_of_mem _ ha)
    refine ⟨b :: bs, ?_, .cons hR hRs⟩
    rw [mapM_cons, hb, ok_bind, hbs]
    rfl

/-! ## Both ways to end -/

/-- A result has the property `P`, an error the property `E`. -/
def Ends (x : Except ε α) (P : α → Prop) (E : ε → Prop) : Prop :=
  match x with
  | .ok a => P a
  | .error e => E e

section
variable (hx : Ends x P E)
include hx

theorem Ends.bind (hk : ∀ a, P a → Ends (k a) Q E) : Ends (x >>= k) Q E := by
  cases x with
  | ok a => exact hk a hx
  | error e => exact hx

theorem Ends.map {g : α → β} (hg : ∀ a, P a → Q (g a)) : Ends (x.map g) Q E := by
  cases x with
  | ok a => exact hg a hx
  | error e => exact hx

theorem Ends.of_ok {a : α} (h : x = .ok a) : P a := by
  rwa [h] at hx

theorem Ends.of_error {e : ε} (h : x = .error e) : E e := by
  rwa [h] at hx

theorem Ends.imp {Q : α → Prop} (h : ∀ a, P a → Q a) : Ends x Q E := by
  cases x with
  | ok a => exact h a hx
  | error e => exact hx

theorem Ends.imp_error (h : ∀ e, E e → E' e) : Ends x P E' := by
  cases x with
  | ok a => exact hx
  | error e => exact h e hx

end

theorem Ends.foldlM {P : σ → Prop} (hs : P s) (hst : ∀ {s x}, x ∈ xs → P s → Ends (f s x) P E) :
    Ends (xs.foldlM f s) P E := by
  induction xs generalizing s with
  | nil => exact hs
  | cons x xs ih =>
    rw [foldlM_cons]
    exact (hst mem_cons_self hs).bind fun t ht => ih ht fun hx => hst (mem_cons_of_mem _ hx)

theorem Succeeds.ends (h : Succeeds x P) : Ends x P E := by
  obtain ⟨a, rfl, ha⟩ := h
  exact ha

/-- Without an error, there is a result. -/
theorem Ends.succeeds (h : Ends x P E) (he : ∀ e, ¬ E e) : Succeeds x P := by
  cases x with
  | ok a => exact ⟨a, rfl, h⟩
  | error e => exact absurd h (he e)

end Fallible
