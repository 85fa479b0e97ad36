import Mathlib.Data.List.Basic

/-!
# Transducers

A transducer reads its input symbol by symbol; each step goes to another state and puts out a list,
or fails. A run over a list gives the last state and all the output, or the error with the number of
the symbols before it.

* `run_append_ok`, `run_append_error`: a run over two lists.
* `run_error_split`: a run fails at the first symbol on which the step fails.
* `run_keeps`: what every step keeps holds after a run.
-/

namespace Transducer

variable {σ ι ο ε : Type*} (step : σ → ι → Except ε (σ × List ο))

def run : σ → List ι → Except (ε × Nat) (σ × List ο)
  | s, [] => .ok (s, [])
  | s, x :: xs =>
    match step s x with
    | .error e => .error (e, 0)
    | .ok (s', out) =>
      match run s' xs with
      | .error (e, k) => .error (e, k + 1)
      | .ok (s'', out') => .ok (s'', out ++ out')

/-- The output of a run up to its first error. -/
def output : σ → List ι → List ο
  | _, [] => []
  | s, x :: xs =>
    match step s x with
    | .error _ => []
    | .ok (s', out) => out ++ output s' xs

variable {step} {s s' s'' : σ} {x : ι} {xs ys : List ι} {out out' : List ο} {e : ε} {k : Nat}

@[simp] theorem run_nil : run step s [] = .ok (s, []) := rfl

@[simp] theorem output_nil : output step s [] = [] := rfl

/-! ## The first symbol -/

theorem run_cons_error (h : step s x = .error e) : run step s (x :: xs) = .error (e, 0) := by
  simp only [run, h]

theorem run_cons_ok (h : step s x = .ok (s', out)) :
    run step s (x :: xs) = match run step s' xs with
      | .error (e, k) => .error (e, k + 1)
      | .ok (s'', out') => .ok (s'', out ++ out') := by
  simp only [run, h]

theorem output_cons_error (h : step s x = .error e) : output step s (x :: xs) = [] := by
  simp only [output, h]

theorem output_cons_ok (h : step s x = .ok (s', out)) :
    output step s (x :: xs) = out ++ output step s' xs := by
  simp only [output, h]

theorem run_singleton (h : step s x = .ok (s', out)) : run step s [x] = .ok (s', out) := by
  simp [run, h]

/-- What a run without an error did with the first symbol. -/
theorem run_cons_eq_ok (h : run step s (x :: xs) = .ok (s'', out)) :
    ∃ s' out1 out2, step s x = .ok (s', out1) ∧ run step s' xs = .ok (s'', out2) ∧
      out = out1 ++ out2 := by
  cases hs : step s x with
  | error e => rw [run_cons_error hs] at h; cases h
  | ok p =>
    rw [run_cons_ok hs] at h
    cases hr : run step p.1 xs with
    | error e => rw [hr] at h; cases h
    | ok q =>
      rw [hr] at h
      cases h
      exact ⟨p.1, p.2, q.2, rfl, hr, rfl⟩

/-- What a run with an error did with the first symbol. -/
theorem run_cons_eq_error (h : run step s (x :: xs) = .error (e, k)) :
    (step s x = .error e ∧ k = 0) ∨
      ∃ s' out1 k', step s x = .ok (s', out1) ∧ run step s' xs = .error (e, k') ∧ k = k' + 1 := by
  cases hs : step s x with
  | error e =>
    rw [run_cons_error hs] at h
    cases h
    exact .inl ⟨rfl, rfl⟩
  | ok p =>
    rw [run_cons_ok hs] at h
    cases hr : run step p.1 xs with
    | ok q => rw [hr] at h; cases h
    | error q =>
      rw [hr] at h
      cases h
      exact .inr ⟨p.1, p.2, q.2, rfl, hr, rfl⟩

/-! ## Two parts -/

/-- **A run goes on** where the run over the first part ended. -/
theorem run_append_ok (h : run step s xs = .ok (s', out)) :
    run step s (xs ++ ys) = match run step s' ys with
      | .error (e, k) => .error (e, xs.length + k)
      | .ok (s'', out') => .ok (s'', out ++ out') := by
  induction xs generalizing s out with
  | nil =>
    cases h
    split <;> simp_all
  | cons x xs ih =>
    obtain ⟨s1, out1, out2, hs, hr, rfl⟩ := run_cons_eq_ok h
    rw [List.cons_append, run_cons_ok hs, ih hr]
    cases run step s' ys with
    | error e => simp only [List.length_cons, Nat.add_right_comm]
    | ok p => simp only [List.append_assoc]

theorem run_append_error (h : run step s xs = .error (e, k)) :
    run step s (xs ++ ys) = .error (e, k) := by
  induction xs generalizing s k with
  | nil => cases h
  | cons x xs ih =>
    rcases run_cons_eq_error h with ⟨hs, rfl⟩ | ⟨s1, out1, k', hs, hr, rfl⟩
    · exact run_cons_error hs
    · rw [List.cons_append, run_cons_ok hs, ih hr]

/-- The parts of a run without an error. -/
theorem run_append_eq_ok (h : run step s (xs ++ ys) = .ok (s'', out)) :
    ∃ s' out1 out2, run step s xs = .ok (s', out1) ∧ run step s' ys = .ok (s'', out2) ∧
      out = out1 ++ out2 := by
  cases hx : run step s xs with
  | error p => rw [run_append_error hx] at h; cases h
  | ok p =>
    rw [run_append_ok hx] at h
    cases hy : run step p.1 ys with
    | error q => rw [hy] at h; cases h
    | ok q =>
      rw [hy] at h
      cases h
      exact ⟨p.1, p.2, q.2, rfl, hy, rfl⟩

theorem output_append (h : run step s xs = .ok (s', out)) :
    output step s (xs ++ ys) = out ++ output step s' ys := by
  induction xs generalizing s out with
  | nil => cases h; rfl
  | cons x xs ih =>
    obtain ⟨s1, out1, out2, hs, hr, rfl⟩ := run_cons_eq_ok h
    rw [List.cons_append, output_cons_ok hs, ih hr, List.append_assoc]

theorem output_of_run (h : run step s xs = .ok (s', out)) : output step s xs = out := by
  have ha : output step s (xs ++ []) = out ++ output step s' [] := output_append h
  rwa [List.append_nil, output_nil, List.append_nil] at ha

/-- **A run fails** at the first symbol on which the step fails. -/
theorem run_error_split (h : run step s xs = .error (e, k)) :
    ∃ xs1 x xs2 s' out, xs = xs1 ++ x :: xs2 ∧ run step s xs1 = .ok (s', out) ∧
      step s' x = .error e := by
  induction xs generalizing s k with
  | nil => cases h
  | cons x xs ih =>
    rcases run_cons_eq_error h with ⟨hs, rfl⟩ | ⟨s1, out1, k', hs, hr, rfl⟩
    · exact ⟨[], x, xs, s, [], rfl, rfl, hs⟩
    · obtain ⟨xs1, x', xs2, s', out, rfl, hrn, hst⟩ := ih hr
      refine ⟨x :: xs1, x', xs2, s', out1 ++ out, rfl, ?_, hst⟩
      rw [run_cons_ok hs, hrn]

/-- The output up to the first error is that of a run over a first part. -/
theorem output_split (step : σ → ι → Except ε (σ × List ο)) (s : σ) (xs : List ι) :
    ∃ xs1 xs2 s' out, xs = xs1 ++ xs2 ∧ run step s xs1 = .ok (s', out) ∧ output step s xs = out := by
  cases h : run step s xs with
  | ok p => exact ⟨xs, [], p.1, p.2, (List.append_nil xs).symm, h, output_of_run h⟩
  | error p =>
    obtain ⟨xs1, x, xs2, s', out, rfl, hr, hst⟩ := run_error_split h
    refine ⟨xs1, x :: xs2, s', out, rfl, hr, ?_⟩
    rw [output_append hr, output_cons_error hst, List.append_nil]

/-- What every step keeps holds after a run. -/
theorem run_keeps {P : σ → Prop} (hst : ∀ s x s' out, P s → step s x = .ok (s', out) → P s')
    (hs : P s) (h : run step s xs = .ok (s', out)) : P s' := by
  induction xs generalizing s out with
  | nil => cases h; exact hs
  | cons x xs ih =>
    obtain ⟨s1, out1, out2, hx, hr, rfl⟩ := run_cons_eq_ok h
    exact ih (hst s x s1 out1 hs hx) hr

end Transducer
