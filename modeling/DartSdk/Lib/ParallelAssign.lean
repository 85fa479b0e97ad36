import Mathlib.Logic.Function.Basic

/-!
# Parallel assignments and their sequential execution

A parallel assignment over locations `L` is a family `rem : ι → Option (L × L)` of pending
`(destination, source)` pairs. `Resolves rem σ τ`: performing all pairs of `rem` at once takes the
store `σ` to `τ`. The rules say how one sequential step (a copy, an exchange, dropping a pair whose
source is its destination) turns the obligation `Resolves rem σ τ` into one about fewer pairs:

* `Resolves.copy`: copy a pair no other pair reads the destination of;
* `Resolves.exchange`: exchange the locations of a pair, redirecting the readers of both;
* `Resolves.trivial`: drop a pair `(l, l)`;
* `Resolves.done`: nothing is pending.
-/

namespace ParallelAssign

variable {ι L V : Type} {rem : ι → Option (L × L)}

section
variable [DecidableEq L]

/-- `σ` with the value of `s` copied to `d`. -/
def copy (d s : L) (σ : L → V) : L → V := Function.update σ d (σ s)

/-- `l` with the names `a` and `b` exchanged. -/
def rename (a b l : L) : L := if l = a then b else if l = b then a else l

/-- `σ` with the values of `a` and `b` exchanged. -/
def exchange (a b : L) (σ : L → V) : L → V := fun l => σ (rename a b l)

@[simp] theorem copy_same (d s : L) (σ : L → V) : copy d s σ d = σ s := by simp [copy]

theorem copy_other {d s l : L} (σ : L → V) (h : l ≠ d) : copy d s σ l = σ l := by
  simp [copy, h]

@[simp] theorem rename_left (a b : L) : rename a b a = b := by simp [rename]

@[simp] theorem rename_right (a b : L) : rename a b b = a := by
  by_cases h : b = a <;> simp [rename, h]

theorem rename_other {a b l : L} (ha : l ≠ a) (hb : l ≠ b) : rename a b l = l := by
  simp [rename, ha, hb]

@[simp] theorem rename_rename (a b l : L) : rename a b (rename a b l) = l := by
  by_cases ha : l = a
  · subst ha; simp
  · by_cases hb : l = b
    · subst hb; simp
    · rw [rename_other ha hb, rename_other ha hb]

@[simp] theorem exchange_rename (a b l : L) (σ : L → V) :
    exchange a b σ (rename a b l) = σ l := by simp [exchange]

end

/-- The pending pairs without the pair at `i`. -/
def erase [DecidableEq ι] (rem : ι → Option (L × L)) (i : ι) : ι → Option (L × L) :=
  fun j => if j = i then none else rem j

/-- The pending pairs with the sources `a` and `b` exchanged. -/
def redirect [DecidableEq L] (a b : L) (rem : ι → Option (L × L)) : ι → Option (L × L) :=
  fun j => (rem j).map fun p => (p.1, rename a b p.2)

/-- Performing the pairs of `rem` simultaneously takes `σ` to `τ`. -/
structure Resolves (rem : ι → Option (L × L)) (σ τ : L → V) : Prop where
  dest : ∀ i d s, rem i = some (d, s) → τ d = σ s
  other : ∀ l, (∀ i s, rem i ≠ some (l, s)) → τ l = σ l

theorem erase_eq_some [DecidableEq ι] {i j : ι} {p : L × L} :
    erase rem i j = some p ↔ j ≠ i ∧ rem j = some p := by
  unfold erase
  split <;> simp_all

theorem redirect_eq_some [DecidableEq L] {a b d s : L} {j : ι} :
    redirect a b rem j = some (d, s) ↔ ∃ s', rem j = some (d, s') ∧ s = rename a b s' := by
  constructor
  · intro h
    obtain ⟨⟨d', s'⟩, hp, he⟩ := Option.map_eq_some_iff.1 h
    simp only [Prod.mk.injEq] at he
    exact ⟨s', by rw [hp, he.1], he.2.symm⟩
  · rintro ⟨s', hp, rfl⟩
    simp [redirect, hp]

namespace Resolves

variable {σ τ : L → V} {i : ι} {d s : L}

section
variable (h : Resolves rem σ τ)
include h

/-- With nothing pending the stores agree. -/
theorem done (hn : ∀ i, rem i = none) : τ = σ := by
  funext l
  refine h.other l fun i s hi => ?_
  rw [hn i] at hi
  cases hi

/-- A location that no pair but `i` overwrites, and `i` neither. -/
theorem other_of_erase [DecidableEq ι] {l : L} (hi : rem i = some (d, s)) (hld : l ≠ d)
    (hl : ∀ j s', erase rem i j ≠ some (l, s')) : τ l = σ l := by
  refine h.other l fun j s' hj => ?_
  by_cases hji : j = i
  · subst hji
    rw [hi] at hj
    simp only [Option.some.injEq, Prod.mk.injEq] at hj
    exact hld hj.1.symm
  · exact hl j s' (erase_eq_some.2 ⟨hji, hj⟩)

/-- A pair whose source is its destination needs no step. -/
theorem trivial [DecidableEq ι] [DecidableEq L] (hi : rem i = some (d, d)) :
    Resolves (erase rem i) σ τ := by
  refine ⟨fun j d' s' hj => h.dest j d' s' (erase_eq_some.1 hj).2, fun l hl => ?_⟩
  by_cases hld : l = d
  · subst hld; exact h.dest i l l hi
  · exact h.other_of_erase hi hld hl

/-- Copying a pair whose destination no other pending pair reads. -/
theorem copy [DecidableEq ι] [DecidableEq L] (hi : rem i = some (d, s))
    (hf : ∀ j d', j ≠ i → rem j ≠ some (d', d)) :
    Resolves (erase rem i) (ParallelAssign.copy d s σ) τ := by
  refine ⟨fun j d' s' hj => ?_, fun l hl => ?_⟩
  · obtain ⟨hne, hj⟩ := erase_eq_some.1 hj
    have hs : s' ≠ d := fun he => hf j d' hne (he ▸ hj)
    rw [copy_other σ hs]
    exact h.dest j d' s' hj
  · by_cases hld : l = d
    · subst hld; rw [copy_same]; exact h.dest i l s hi
    · rw [copy_other σ hld]
      exact h.other_of_erase hi hld hl

/-- Exchanging the locations of a pair whose source some other pending pair still overwrites. -/
theorem exchange [DecidableEq ι] [DecidableEq L] (hi : rem i = some (d, s))
    (ho : ∃ j s', j ≠ i ∧ rem j = some (s, s')) :
    Resolves (redirect s d (erase rem i)) (ParallelAssign.exchange s d σ) τ := by
  refine ⟨fun j d' s' hj => ?_, fun l hl => ?_⟩
  · obtain ⟨s0, hj0, rfl⟩ := redirect_eq_some.1 hj
    rw [exchange_rename]
    exact h.dest j d' s0 (erase_eq_some.1 hj0).2
  -- `s` is still overwritten, so the old value of `d` parked there is not observed
  have hls : l ≠ s := by
    rintro rfl
    obtain ⟨j, s', hne, hj⟩ := ho
    exact hl j _ (redirect_eq_some.2 ⟨s', erase_eq_some.2 ⟨hne, hj⟩, rfl⟩)
  by_cases hld : l = d
  · subst hld
    rw [ParallelAssign.exchange, rename_right]
    exact h.dest i l s hi
  · rw [ParallelAssign.exchange, rename_other hls hld]
    exact h.other_of_erase hi hld fun j s' hj => hl j _ (redirect_eq_some.2 ⟨s', hj, rfl⟩)

end

end Resolves

end ParallelAssign
