import Mathlib.Order.Bounds.Basic

/-!
# Row displacement

Rows of cells that share one table: each row has an offset, and its cells stand at the offset plus
their number. A pass goes through rows in some order and gives each row without an offset the
smallest offset in a range where no cell is taken, if there is one.

* `Separate.pass`: whatever the passes and their orders, no two cells share an index.
-/

namespace RowDisplacement

open Function (update update_eq_self update_of_ne update_self)

variable {ι : Type}

/-- The indices that are taken. -/
def occupied (cells : ι → Set ℕ) (P : ι → Option ℕ) : Set ℕ :=
  {x | ∃ i o, P i = some o ∧ ∃ c ∈ cells i, o + c = x}

/-- The row `i` can stand at `o`. -/
def Fits (cells : ι → Set ℕ) (P : ι → Option ℕ) (i : ι) (o : ℕ) : Prop :=
  ∀ c ∈ cells i, o + c ∉ occupied cells P

/-- The smallest offset from `lo` to `hi` where the row fits, or none. -/
def FirstFit (cells : ι → Set ℕ) (lo hi : ℕ) (P : ι → Option ℕ) (i : ι) : Option ℕ → Prop
  | some o => IsLeast {o | lo ≤ o ∧ o ≤ hi ∧ Fits cells P i o} o
  | none => ∀ o, lo ≤ o → o ≤ hi → ¬ Fits cells P i o

/-- One row in a pass. -/
inductive Place [DecidableEq ι] (cells : ι → Set ℕ) (lo hi : ℕ) (P : ι → Option ℕ) (i : ι) :
    (ι → Option ℕ) → Prop
  | placed {o : ℕ} : P i = some o → Place cells lo hi P i P
  | search {r : Option ℕ} : P i = none → FirstFit cells lo hi P i r →
    Place cells lo hi P i (update P i r)

/-- A pass over a list of rows. -/
inductive Pass [DecidableEq ι] (cells : ι → Set ℕ) (lo hi : ℕ) :
    (ι → Option ℕ) → List ι → (ι → Option ℕ) → Prop
  | nil {P} : Pass cells lo hi P [] P
  | cons {P P' P'' i l} : Place cells lo hi P i P' → Pass cells lo hi P' l P'' →
    Pass cells lo hi P (i :: l) P''

variable {cells : ι → Set ℕ} {P P' : ι → Option ℕ} {i : ι} {lo hi : ℕ}

/-- No two cells share an index. -/
def Separate (cells : ι → Set ℕ) (P : ι → Option ℕ) : Prop :=
  ∀ ⦃i j o o' c c'⦄, P i = some o → P j = some o' → c ∈ cells i → c' ∈ cells j →
    o + c = o' + c' → i = j

theorem separate_empty : Separate cells fun _ => none := by
  intro i j o o' c c' h
  cases h

theorem occupied_empty : occupied cells (fun _ => none) = ∅ := by
  ext x
  simp [occupied]

variable [DecidableEq ι] {l : List ι}

theorem occupied_update_some (hi : P i = none) {o : ℕ} :
    occupied cells (update P i (some o)) = occupied cells P ∪ {x | ∃ c ∈ cells i, o + c = x} := by
  ext x
  constructor
  · rintro ⟨j, o', hj, hx⟩
    by_cases h : j = i
    · subst h
      rw [update_self] at hj
      cases hj
      exact .inr hx
    · rw [update_of_ne h] at hj
      exact .inl ⟨j, o', hj, hx⟩
  · rintro (⟨j, o', hj, hx⟩ | hx)
    · refine ⟨j, o', ?_, hx⟩
      rw [update_of_ne _, hj]
      intro h
      rw [h, hi] at hj
      cases hj
    · exact ⟨i, o, update_self .., hx⟩

theorem update_none (hi : P i = none) : update P i none = P := by
  rw [← hi, update_eq_self]

theorem Place.of_ne {j : ι} (h : Place cells lo hi P i P') (hj : j ≠ i) : P' j = P j := by
  cases h with
  | placed h => rfl
  | search h hr => exact update_of_ne hj ..

/-- A row goes where none of its cells is taken. -/
theorem Separate.place (hP : Separate cells P) (h : Place cells lo hi P i P') :
    Separate cells P' := by
  cases h with
  | placed h => exact hP
  | @search r h hr =>
    cases r with
    | none => rwa [update_none h]
    | some o =>
      have hf : Fits cells P i o := hr.1.2.2
      intro j k oj ok c c' hj hk hc hc' heq
      by_contra hjk
      by_cases hji : j = i
      · subst hji
        rw [update_self] at hj
        rw [update_of_ne (Ne.symm hjk)] at hk
        cases hj
        exact hf c hc ⟨k, ok, hk, c', hc', heq.symm⟩
      · rw [update_of_ne hji] at hj
        by_cases hki : k = i
        · subst hki
          rw [update_self] at hk
          cases hk
          exact hf c' hc' ⟨j, oj, hj, c, hc, heq⟩
        · rw [update_of_ne hki] at hk
          exact hjk (hP hj hk hc hc' heq)

/-- **No two cells share an index** after a pass. -/
theorem Separate.pass (hP : Separate cells P) (h : Pass cells lo hi P l P') :
    Separate cells P' := by
  induction h with
  | nil => exact hP
  | cons h _ ih => exact ih (hP.place h)

theorem Pass.of_not_mem {j : ι} (h : Pass cells lo hi P l P') (hj : j ∉ l) : P' j = P j := by
  induction h with
  | nil => rfl
  | cons h _ ih =>
    simp only [List.mem_cons, not_or] at hj
    rw [ih hj.2, h.of_ne hj.1]

theorem Place.occupied_lt {B N : ℕ} (h : Place cells lo hi P i P') (hN : ∀ c ∈ cells i, c < N)
    (hB : ∀ x ∈ occupied cells P, x < B) (hhi : hi + N ≤ B) : ∀ x ∈ occupied cells P', x < B := by
  cases h with
  | placed h => exact hB
  | @search r h hr =>
    cases r with
    | none => rwa [update_none h]
    | some o =>
      rw [occupied_update_some h]
      intro x hx
      rcases hx with hx | ⟨c, hc, rfl⟩
      · exact hB x hx
      · have := hN c hc
        have := hr.1.2.1
        omega

/-- A bound of the table that is above the offsets of a pass, plus the width of the rows, stays a
bound. -/
theorem Pass.occupied_lt {B N : ℕ} (h : Pass cells lo hi P l P')
    (hN : ∀ i ∈ l, ∀ c ∈ cells i, c < N) (hB : ∀ x ∈ occupied cells P, x < B) (hhi : hi + N ≤ B) :
    ∀ x ∈ occupied cells P', x < B := by
  induction h with
  | nil => exact hB
  | cons h _ ih =>
    exact ih (fun i hi => hN i (List.mem_cons_of_mem _ hi))
      (h.occupied_lt (hN _ List.mem_cons_self) hB hhi)

end RowDisplacement
