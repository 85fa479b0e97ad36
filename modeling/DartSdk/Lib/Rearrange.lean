import Mathlib.Data.List.Perm.Basic
import Mathlib.Order.Antisymmetrization
import Mathlib.Data.List.Nodup

/-!
# Rearranging a range of cells

Cells are a function on the integers. `Rearranges l r f g` says that `g` has the values of `f` with
those from `l` to `r` in another order. Exchanging two cells of the range is a rearrangement, and
rearrangements compose; what holds of all values in the range holds of them afterwards.

Values are compared by a key in a linear order; `exists_key` gives such a key for every comparison
function that is a total preorder.
-/

namespace Rearrange

open List Function Equiv
open Equiv (swap)

variable {α : Type*} {l r l' r' i j : ℤ} {f g h : ℤ → α} {P : α → Prop}

/-! ## Rearrangements -/

def Rearranges (l r : ℤ) (f g : ℤ → α) : Prop :=
  ∃ σ : Equiv.Perm ℤ, (∀ i, i < l ∨ r < i → σ i = i) ∧ ∀ i, g i = f (σ i)

theorem Rearranges.refl (l r : ℤ) (f : ℤ → α) : Rearranges l r f f :=
  ⟨.refl ℤ, fun _ _ => rfl, fun _ => rfl⟩

section
variable (hfg : Rearranges l r f g)
include hfg

theorem Rearranges.trans (hgh : Rearranges l r g h) : Rearranges l r f h := by
  obtain ⟨σ, hσ, hg⟩ := hfg
  obtain ⟨τ, hτ, hh⟩ := hgh
  refine ⟨τ.trans σ, ?_, ?_⟩
  · intro i hi
    rw [trans_apply, hτ i hi, hσ i hi]
  · intro i
    rw [hh, hg, trans_apply]

theorem Rearranges.mono (hl : l' ≤ l) (hr : r ≤ r') : Rearranges l' r' f g := by
  obtain ⟨σ, hσ, hg⟩ := hfg
  refine ⟨σ, ?_, hg⟩
  intro i hi
  apply hσ
  omega

theorem Rearranges.outside (hi : i < l ∨ r < i) : g i = f i := by
  obtain ⟨σ, hσ, hg⟩ := hfg
  rw [hg, hσ i hi]

/-- Where a value of the range comes from. -/
theorem Rearranges.source (hl : l ≤ i) (hr : i ≤ r) : ∃ j, l ≤ j ∧ j ≤ r ∧ g i = f j := by
  obtain ⟨σ, hσ, hg⟩ := hfg
  refine ⟨σ i, ?_, ?_, hg i⟩
  · by_contra hlt
    have hfx := σ.injective (hσ (σ i) (.inl (not_le.mp hlt)))
    omega
  · by_contra hlt
    have hfx := σ.injective (hσ (σ i) (.inr (not_le.mp hlt)))
    omega

theorem Rearranges.symm : Rearranges l r g f := by
  obtain ⟨σ, hσ, hg⟩ := hfg
  refine ⟨σ.symm, ?_, ?_⟩
  · intro i hi
    rw [symm_apply_eq, hσ i hi]
  · intro i
    rw [hg, apply_symm_apply]

/-- Where a value of the range goes. -/
theorem Rearranges.target (hl : l ≤ i) (hr : i ≤ r) : ∃ j, l ≤ j ∧ j ≤ r ∧ g j = f i := by
  obtain ⟨j, hlj, hjr, hj⟩ := hfg.symm.source hl hr
  exact ⟨j, hlj, hjr, hj.symm⟩

/-- What holds of all values in a stretch with the range inside or outside of it holds of them after
a rearrangement. -/
theorem Rearranges.forall_of {p q : ℤ}
    (hpq : p ≤ l ∧ r ≤ q ∨ q < l ∨ r < p) (hf : ∀ i, p ≤ i → i ≤ q → P (f i)) (hp : p ≤ i)
    (hq : i ≤ q) : P (g i) := by
  by_cases hi : l ≤ i ∧ i ≤ r
  · obtain ⟨j, hlj, hjr, hj⟩ := hfg.source hi.1 hi.2
    rw [hj]
    exact hf j (by omega) (by omega)
  · rw [hfg.outside (by omega)]
    exact hf i hp hq

theorem Rearranges.forall (hf : ∀ i, l ≤ i → i ≤ r → P (f i)) (hl : l ≤ i) (hr : i ≤ r) : P (g i) :=
  hfg.forall_of (.inl ⟨le_rfl, le_rfl⟩) hf hl hr

end

section
variable (f : ℤ → α)

theorem rearranges_swap (hi : l ≤ i ∧ i ≤ r := by omega) (hj : l ≤ j ∧ j ≤ r := by omega) :
    Rearranges l r f (f ∘ swap i j) := by
  refine ⟨swap i j, ?_, fun _ => rfl⟩
  intro x hx
  apply swap_apply_of_ne_of_ne
  · omega
  · omega

@[simp] theorem comp_swap_left (i j : ℤ) : (f ∘ swap i j) i = f j := by
  rw [comp_apply, swap_apply_left]

@[simp] theorem comp_swap_right (i j : ℤ) : (f ∘ swap i j) j = f i := by
  rw [comp_apply, swap_apply_right]

theorem comp_swap_of_ne {k : ℤ} (hi : k ≠ i := by omega) (hj : k ≠ j := by omega) :
    (f ∘ swap i j) k = f k := by
  rw [comp_apply, swap_apply_of_ne_of_ne hi hj]

/-- The cell `k` after an exchange: one of the two exchanged cells, or another. -/
@[elab_as_elim]
theorem comp_swap_cases (i j k : ℤ) (right : k = j → P (f i))
    (left : k = i → k ≠ j → P (f j)) (other : k ≠ i → k ≠ j → P (f k)) :
    P ((f ∘ swap i j) k) := by
  by_cases hj : k = j
  · rw [hj, comp_swap_right]
    exact right hj
  by_cases hi : k = i
  · rw [hi, comp_swap_left]
    exact left hi hj
  · rw [comp_swap_of_ne f hi hj]
    exact other hi hj

/-- The cell `k` after `i`, `j` and `g` are rotated. -/
@[elab_as_elim]
theorem comp_rotate_cases (i j g k : ℤ) (hj : g ≠ j) (hi : g ≠ i)
    (middle : k = j → P (f g)) (last : k = g → P (f i)) (first : k = i → k ≠ j → P (f j))
    (other : k ≠ i → k ≠ j → k ≠ g → P (f k)) : P (((f ∘ swap i j) ∘ swap j g) k) := by
  refine comp_swap_cases _ j g k (fun h => ?_) (fun h _ => ?_) fun hkj hkg => ?_
  · rw [comp_swap_right]
    exact last h
  · rw [comp_swap_of_ne f hi hj]
    exact middle h
  · exact comp_swap_cases f i j k (fun h => absurd h hkj) first fun h _ => other h hkj hkg

end

/-! ## Three parts -/

/-- Cells from `lo` to `hi` that are partitioned before `k`: low ones before `less`, high ones behind
`great`, and the others between them. -/
structure Parts (low middle high : α → Prop) (lo hi : ℤ) (f₀ : ℤ → α) (k less great : ℤ)
    (f : ℤ → α) : Prop where
  lo_le : lo ≤ less
  less_le : less ≤ k
  less_le_great : less ≤ great + 1
  great_le : great ≤ hi
  rearranges : Rearranges lo hi f₀ f
  low : ∀ i, lo ≤ i → i < less → low (f i)
  middle : ∀ i, less ≤ i → i < k → i ≤ great → middle (f i)
  high : ∀ i, great < i → i ≤ hi → high (f i)

namespace Parts

variable {low middle high : α → Prop} {lo hi k less great : ℤ} {f₀ : ℤ → α}

theorem start (hle : less ≤ great + 1) : Parts low middle high less great f less less great f :=
  ⟨le_rfl, le_rfl, hle, le_rfl, .refl _ _ _, by omega, by omega, by omega⟩

variable (hp : Parts low middle high lo hi f₀ k less great f)
include hp

/-- The end of a partition, in other terms. -/
theorem ended {low' middle' high' : α → Prop} (hk : great < k)
    (hlw : ∀ i, lo ≤ i → i ≤ hi → low (f i) → low' (f i))
    (hm : ∀ i, lo ≤ i → i ≤ hi → middle (f i) → middle' (f i))
    (hhigh : ∀ i, lo ≤ i → i ≤ hi → high (f i) → high' (f i)) :
    Parts low' middle' high' lo hi f₀ (great + 1) less great f := by
  obtain ⟨hlo, hls, hlg, hgr, hr, hl, hmd, hh⟩ := hp
  refine ⟨hlo, hlg, hlg, hgr, hr, ?_, ?_, ?_⟩
  · intro i hi hil
    exact hlw i hi (by omega) (hl i hi hil)
  · intro i hi _ hig
    exact hm i (by omega) (by omega) (hmd i hi (by omega) hig)
  · intro i hi hih
    exact hhigh i (by omega) hih (hh i hi hih)

theorem skip (hm : middle (f k)) : Parts low middle high lo hi f₀ (k + 1) less great f := by
  refine { hp with less_le := ?_, middle := ?_ }
  · have := hp.less_le
    omega
  intro i hi hik hig
  by_cases heq : i = k
  · rwa [heq]
  · exact hp.middle i hi (by omega) hig

variable (hk : k ≤ great)
include hk

theorem lower (hlw : low (f k)) :
    Parts low middle high lo hi f₀ (k + 1) (less + 1) great (f ∘ swap k less) := by
  obtain ⟨hlo, hls, hlg, hgr, hr, hl, hm, hhigh⟩ := hp
  refine ⟨by omega, by omega, by omega, hgr, ?_, ?_, ?_, ?_⟩
  · exact hr.trans (rearranges_swap f)
  · intro i hi hil
    exact comp_swap_cases f k less i (fun _ => hlw) (by omega) fun _ _ => hl i hi (by omega)
  · intro i hi hik hig
    exact comp_swap_cases f k less i (by omega) (fun _ _ => hm less le_rfl (by omega) (by omega))
      fun _ _ => hm i (by omega) (by omega) hig
  · intro i hi hih
    rw [comp_swap_of_ne f]
    exact hhigh i hi hih

theorem all_high (hall : ∀ i, k ≤ i → i ≤ hi → high (f i)) :
    Parts low middle high lo hi f₀ (k + 1) less (k - 1) f := by
  obtain ⟨hlo, hls, hlg, hgr, hr, hl, hm, -⟩ := hp
  refine ⟨hlo, by omega, by omega, by omega, hr, hl, ?_, ?_⟩
  · intro i hi hik hig
    exact hm i hi (by omega) (by omega)
  · intro i hi hih
    exact hall i (by omega) hih

variable {g : ℤ} (hg : g ≤ hi) (hall : ∀ i, g < i → i ≤ hi → high (f i)) (hhigh : high (f k))
include hg hall hhigh

/-- A cell of the first part, one of the middle and one of the third go round. -/
theorem rotate (hkg : k < g) (hlw : low (f g)) :
    Parts low middle high lo hi f₀ (k + 1) (less + 1) (g - 1)
      ((f ∘ swap k less) ∘ swap less g) := by
  obtain ⟨hlo, hls, hlg, hgr, hr, hl, hm, -⟩ := hp
  refine ⟨by omega, by omega, by omega, by omega, ?_, ?_, ?_, ?_⟩
  · apply hr.trans
    apply (rearranges_swap f (i := k) (j := less)).trans
    exact rearranges_swap _
  · intro i hi hil
    exact comp_rotate_cases f k less g i (by omega) (by omega) (fun _ => hlw) (by omega) (by omega)
      fun _ _ _ => hl i hi (by omega)
  · intro i hi hik hig
    exact comp_rotate_cases f k less g i (by omega) (by omega) (by omega) (by omega)
      (fun _ _ => hm less le_rfl (by omega) (by omega))
      fun _ _ _ => hm i (by omega) (by omega) (by omega)
  · intro i hi hih
    exact comp_rotate_cases f k less g i (by omega) (by omega) (by omega) (fun _ => hhigh)
      (by omega) fun _ _ _ => hall i (by omega) hih

/-- The cell `g` takes the place of `k`. When it is the one before, it gets among the high ones. -/
theorem exchange (hkg : k < g ∨ g = k - 1 ∧ less ≤ g ∧ high (f g)) (hmd : middle (f g)) :
    Parts low middle high lo hi f₀ (k + 1) less (g - 1) (f ∘ swap k g) := by
  obtain ⟨hlo, hls, hlg, hgr, hr, hl, hm, -⟩ := hp
  refine ⟨hlo, by omega, by omega, by omega, ?_, ?_, ?_, ?_⟩
  · exact hr.trans (rearranges_swap f)
  · intro i hi hil
    rw [comp_swap_of_ne f]
    exact hl i hi hil
  · intro i hi hik hig
    exact comp_swap_cases f k g i (by omega) (fun _ _ => hmd)
      fun _ _ => hm i hi (by omega) (by omega)
  · intro i hi hih
    exact comp_swap_cases f k g i (fun _ => hhigh) (fun _ _ => hkg.elim (by omega) (·.2.2))
      fun _ _ => hall i (by omega) hih

end Parts

/-! ## Writes that exchange cells -/

open Function (update update_idem update_of_ne update_self)

/-- An exchange through a variable. -/
theorem update_update_eq_swap (f : ℤ → α) (i j : ℤ) :
    update (update f i (f j)) j (f i) = f ∘ swap i j := by
  rw [Equiv.swap_comm, comp_swap_eq_update]

/-- The value that is to go into the hole `j` has moved to the hole `i`. -/
theorem update_hole (f : ℤ → α) (v : α) (i j : ℤ) :
    update (update f j (f i)) i v = update f j v ∘ swap i j := by
  by_cases hne : i = j
  · rw [hne, update_idem, Equiv.swap_self]
    rfl
  · have hsw := update_update_eq_swap (update f j v) j i
    rw [update_self, update_of_ne hne, update_idem] at hsw
    rw [hsw, Equiv.swap_comm]

theorem update_comp_swap {k : ℤ} (f : ℤ → α) (v : α) (hi : k ≠ i := by omega)
    (hj : k ≠ j := by omega) : update (f ∘ swap i j) k v = update f k v ∘ swap i j := by
  funext x
  rw [comp_apply]
  by_cases hx : x = k
  · rw [hx, update_self, swap_apply_of_ne_of_ne hi hj, update_self]
  have hsw : swap i j x ≠ k := by
    rw [← swap_apply_of_ne_of_ne hi hj]
    exact (swap i j).injective.ne hx
  rw [update_of_ne hx, update_of_ne hsw, comp_apply]

/-- A cell outside the range may be written. -/
theorem Rearranges.update (hfg : Rearranges l r f g) (hi : i < l ∨ r < i) (v : α) :
    Rearranges l r (update f i v) (update g i v) := by
  obtain ⟨σ, hσ, hg⟩ := hfg
  refine ⟨σ, hσ, ?_⟩
  intro x
  by_cases hx : x = i
  · rw [hx, hσ i hi, update_self, update_self]
  have hne : σ x ≠ i := by
    rw [← hσ i hi]
    exact σ.injective.ne hx
  rw [update_of_ne hx, update_of_ne hne, hg]

/-! ## Order -/

variable {κ : Type*} [LinearOrder κ] {key : α → κ} {m : ℤ}

/-- The values from `l` to `r` are in order. -/
def SortedOn (key : α → κ) (l r : ℤ) (f : ℤ → α) : Prop :=
  ∀ i j, l ≤ i → i ≤ j → j ≤ r → key (f i) ≤ key (f j)

theorem sortedOn_of_le (h : r ≤ l) : SortedOn key l r f := by
  intro i j hl hij hr
  rw [show i = j by omega]

theorem SortedOn.congr (hf : SortedOn key l r f) (h : ∀ i, l ≤ i → i ≤ r → g i = f i) :
    SortedOn key l r g := by
  intro i j hl hij hr
  rw [h i hl (hij.trans hr), h j (hl.trans hij) hr]
  exact hf i j hl hij hr

/-- Two sorted ranges with a bound between them. -/
theorem SortedOn.append (b : κ) (hlw : SortedOn key l m f) (hhigh : SortedOn key (m + 1) r f)
    (hle : ∀ i, l ≤ i → i ≤ m → key (f i) ≤ b) (hge : ∀ i, m < i → i ≤ r → b ≤ key (f i)) :
    SortedOn key l r f := by
  intro i j hl hij hr
  rcases le_or_gt j m with hj | hj
  · exact hlw i j hl hij hj
  · rcases le_or_gt i m with hi | hi
    · exact (hle i hl hi).trans (hge j hj hr)
    · exact hhigh i j (by omega) hij hr

/-! ## Comparison functions -/

/-- A comparison function for a total preorder: its sign says which of two values is less. -/
structure IsTotalPreorder (compare : α → α → ℤ) : Prop where
  neg_iff : ∀ x y, compare x y < 0 ↔ 0 < compare y x
  trans : ∀ x y z, compare x y ≤ 0 → compare y z ≤ 0 → compare x z ≤ 0

/-- The comparison function compares keys. -/
structure Ranks (compare : α → α → ℤ) (key : α → κ) : Prop where
  neg_iff : ∀ x y, compare x y < 0 ↔ key x < key y
  pos_iff : ∀ x y, 0 < compare x y ↔ key y < key x

theorem Ranks.nonpos_iff {compare : α → α → ℤ} (h : Ranks compare key) (x y : α) :
    compare x y ≤ 0 ↔ key x ≤ key y := by
  rw [← not_lt, h.pos_iff, not_lt]

theorem Ranks.eq_zero_iff {compare : α → α → ℤ} (h : Ranks compare key) (x y : α) :
    compare x y = 0 ↔ key x = key y := by
  rw [le_antisymm_iff, le_antisymm_iff, h.nonpos_iff, ← not_lt (a := compare x y), h.neg_iff,
    not_lt]

universe u

theorem exists_key {α : Type u} {compare : α → α → ℤ} (h : IsTotalPreorder compare) :
    ∃ (κ : Type u) (_ : LinearOrder κ) (key : α → κ), Ranks compare key := by
  classical
  have hsl : ∀ x, compare x x ≤ 0 := by
    intro x
    by_contra hps
    have hn := (h.neg_iff x x).mpr (not_le.mp hps)
    omega
  let _ : Preorder α :=
    { le := fun x y => compare x y ≤ 0
      le_refl := hsl
      le_trans := h.trans }
  have _ : @Std.Total α (· ≤ ·) := by
    constructor
    intro x y
    rcases lt_or_ge 0 (compare x y) with hps | hle
    · exact .inr ((h.neg_iff y x).mpr hps).le
    · exact .inl hle
  refine ⟨Antisymmetrization α (· ≤ ·), inferInstance, toAntisymmetrization (· ≤ ·), ?_⟩
  have hlt : ∀ x y : α, compare x y < 0 ↔ x < y := by
    intro x y
    have hxy : x < y ↔ compare x y ≤ 0 ∧ ¬ compare y x ≤ 0 := lt_iff_le_not_ge
    have hn := h.neg_iff x y
    rw [hxy]
    omega
  refine ⟨hlt, ?_⟩
  intro x y
  rw [← h.neg_iff]
  exact hlt y x

/-! ## Lists -/

/-- The cells of a range, as a list. -/
def stretch (f : ℤ → α) (l : ℤ) (n : ℕ) : List α := (List.range n).map fun k : ℕ => f (l + k)

theorem length_stretch (f : ℤ → α) (l : ℤ) (n : ℕ) : (stretch f l n).length = n := by
  rw [stretch, length_map, length_range]

theorem stretch_add (f : ℤ → α) (l : ℤ) (m n : ℕ) :
    stretch f l (m + n) = stretch f l m ++ stretch f (l + m) n := by
  rw [stretch, range_add, map_append, map_map, stretch, stretch]
  congr 1
  apply map_congr_left
  intro k _
  rw [comp_apply, Int.natCast_add, Int.add_assoc]

theorem stretch_congr {n : ℕ} (h : ∀ i, l ≤ i → i < l + n → g i = f i) :
    stretch g l n = stretch f l n := by
  apply map_congr_left
  intro k hk
  rw [mem_range] at hk
  exact h _ (by omega) (by omega)

theorem Rearranges.stretch_perm {n : ℕ} (hfg : Rearranges l (l + n - 1) f g) :
    (stretch g l n).Perm (stretch f l n) := by
  obtain ⟨σ, hσ, hg⟩ := hfg
  let cells : List ℤ := (List.range n).map fun k : ℕ => l + k
  have hm : ∀ i, i ∈ cells ↔ l ≤ i ∧ i ≤ l + n - 1 := by
    intro i
    simp only [cells, mem_map, mem_range]
    constructor
    · rintro ⟨k, hk, rfl⟩
      omega
    · rintro ⟨hl, hr⟩
      exact ⟨(i - l).toNat, by omega, by omega⟩
  have hnd : cells.Nodup := by
    apply List.Nodup.map _ nodup_range
    intro a b hab
    exact Int.ofNat_inj.mp (Int.add_left_cancel hab)
  have hpr : (cells.map σ).Perm cells := by
    have hsb : cells.map σ ⊆ cells := by
      intro i hi
      obtain ⟨j, hj, rfl⟩ := mem_map.mp hi
      rw [hm] at hj ⊢
      by_contra ho
      rw [σ.injective (hσ (σ j) (by omega))] at ho
      exact ho hj
    apply (subperm_of_subset (hnd.map σ.injective) hsb).perm_of_length_le
    exact (length_map _).ge
  have hst : stretch g l n = (cells.map σ).map f := by
    simp only [stretch, cells, map_map]
    apply map_congr_left
    intro k _
    exact hg (l + k)
  rw [hst]
  have hf := hpr.map f
  simpa only [cells, map_map, stretch, comp_def] using hf

theorem SortedOn.stretch_pairwise {n : ℕ} (hf : SortedOn key l (l + n - 1) f) :
    (stretch f l n).Pairwise fun x y => key x ≤ key y := by
  rw [stretch, pairwise_map]
  apply Pairwise.imp_of_mem _ pairwise_lt_range
  intro a b ha hb hab
  rw [mem_range] at ha hb
  exact hf _ _ (by omega) (by omega) (by omega)

end Rearrange
