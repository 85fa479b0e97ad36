import DartSdk.Internal.Proof.SortLoops
import Mathlib.Data.Fin.VecNotation
import Mathlib.Logic.Equiv.Fintype
import Mathlib.Tactic.FinCases

/-!
# The sort

* `network_spec`: the sorting network exchanges its inputs and puts the three middle ones in order.
* `choosePivots_spec`, `placePivots_spec`: while the cells `left` and `right` are free, the pivots
  are thought to be in them.
* `doSort_spec`: a range is put in order, by induction on the bound for the recursive calls.
* `sort_spec`: **every list is sorted**, for every comparison function that is a total preorder.
-/

namespace Internal.Sort

open Fallible Rearrange List Int Equiv
open Equiv (swap)
open Function (update update_comm update_eq_self update_of_ne update_self)

variable {E : Type} {κ : Type*} [LinearOrder κ] {key : E → κ} {compare : E → E → ℤ} {a : List E}
  {n fuel : Nat} {f : ℤ → E} {left rt : ℤ} {pv pv1 pv2 : E} {s : Partition E}

/-! ## Partitions in terms of keys -/

/-- The cells from `lo` to `hi` in three parts, with the bounds `low` and `high` between them. -/
abbrev Parted (key : E → κ) (lo hi : ℤ) (low high : κ) (f₀ : ℤ → E) (less great : ℤ)
    (f : ℤ → E) : Prop :=
  Parts (key · ≤ low) (fun x => low ≤ key x ∧ key x ≤ high) (high ≤ key ·) lo hi f₀ (great + 1) less
    great f

section

variable {lo hi less great : ℤ} {low high : κ} {f₀ f' : ℤ → E}

theorem Parted.rearrange {l r : ℤ} (h : Parted key lo hi low high f₀ less great f)
    (hf : Rearranges l r f f') (hl : lo ≤ l) (hr : r ≤ hi)
    (hp : r < less ∨ less ≤ l ∧ r ≤ great ∨ great < l) :
    Parted key lo hi low high f₀ less great f' := by
  have hless := h.less_le
  refine { h with rearranges := ?_, low := ?_, middle := ?_, high := ?_ }
  · exact h.rearranges.trans (hf.mono hl hr)
  · intro i hi hil
    refine hf.forall_of (P := (key · ≤ low)) (q := less - 1) (by omega) ?_ hi (by omega)
    intro j hj hjl
    exact h.low j hj (by omega)
  · intro i hi _ hig
    refine hf.forall_of (P := fun x => low ≤ key x ∧ key x ≤ high) (by omega) ?_ hi hig
    intro j hj hjg
    exact h.middle j hj (by omega) hjg
  · intro i hi hih
    refine hf.forall_of (P := (high ≤ key ·)) (by omega) ?_ hi hih
    intro j hj hjh
    exact h.high j hj hjh

/-- The bounds themselves may belong to the middle part. -/
theorem Parted.widen (h : Parted key lo hi low high f₀ less great f) (hle : low ≤ high)
    (hfr : key (f (less - 1)) = low) (hl : key (f (great + 1)) = high) (hlo : lo < less)
    (hhi : great < hi) : Parted key lo hi low high f₀ (less - 1) (great + 1) f := by
  have hless := h.less_le
  refine ⟨by omega, by omega, by omega, by omega, h.rearranges, ?_, ?_, ?_⟩
  · intro i hi hil
    exact h.low i hi (by omega)
  · intro i hi _ hig
    by_cases heq : i = less - 1
    · rw [heq, hfr]
      exact ⟨le_rfl, hle⟩
    by_cases heq' : i = great + 1
    · rw [heq', hl]
      exact ⟨hle, le_rfl⟩
    · exact h.middle i (by omega) (by omega) (by omega)
  · intro i hi hih
    exact h.high i (by omega) hih

theorem Parted.sortedOn (h : Parted key lo hi low high f₀ less great f)
    (hle : low ≤ high) (hl : SortedOn key lo (less - 1) f) (hm : SortedOn key less great f)
    (hhg : SortedOn key (great + 1) hi f) : SortedOn key lo hi f := by
  apply SortedOn.append low hl
  · rw [Int.sub_add_cancel]
    apply SortedOn.append high hm hhg
    · intro i hi hig
      exact (h.middle i hi (by omega) hig).2
    · intro i hi hih
      exact h.high i hi hih
  · intro i hlo hi
    exact h.low i hlo (by omega)
  intro i hi hih
  rcases le_or_gt i great with hig | hig
  · exact (h.middle i (by omega) (by omega) hig).1
  · exact hle.trans (h.high i hig hih)

/-- If the bounds are equal, the middle part is in order. -/
theorem Parted.sortedOn_middle (h : Parted key lo hi low low f₀ less great f) :
    SortedOn key less great f := by
  intro i j hi hij hj
  exact (h.middle i hi (by omega) (by omega)).2.trans (h.middle j (by omega) (by omega) hj).1

end

/-! ## The loops -/

section
variable (hkey : Ranks compare key) (ha : Cells s.a n f) (hless : 0 ≤ s.less)
  (hle : s.less ≤ s.great + 1) (hgreat : s.great < n)
include hkey ha hless hle hgreat

theorem partition_spec :
    Succeeds (partition compare pv1 pv2 s) (fun s' => ∃ f', Cells s'.a n f' ∧
      Parted key s.less s.great (key pv1) (key pv2) f s'.less s'.great f') := by
  have hl := ha.length_eq
  apply (partitionLoop_spec hless hgreat (fun _ _ _ h => decide_eq_true h) ha (.start hle)
    (by omega) (by omega)).imp
  rintro s' ⟨f', k, ha', hk, h⟩
  refine ⟨f', ha', h.ended hk ?_ ?_ ?_⟩
  · intro i _ _ hlw
    exact ((hkey.neg_iff _ _).mp (of_decide_eq_true hlw)).le
  · rintro i _ _ ⟨hge, hle⟩
    rw [hkey.neg_iff, not_lt] at hge
    exact ⟨hge, (hkey.nonpos_iff _ _).mp (not_lt.mp (of_decide_eq_false hle))⟩
  · intro i _ _ hhg
    exact ((hkey.pos_iff _ _).mp (of_decide_eq_true hhg)).le

theorem equalPartition_spec (hp : ∃ i, s.less ≤ i ∧ i ≤ s.great ∧ compare (f i) pv = 0) :
    Succeeds (equalLoop compare pv (s.a.length + 1) s s.less) (fun s' => ∃ f',
      Cells s'.a n f' ∧ Parted key s.less s.great (key pv) (key pv) f s'.less s'.great f') := by
  have hl := ha.length_eq
  apply (equalLoop_spec hless hgreat hp ha (.of_parts (.start hle)) (by omega) (by omega)).imp
  rintro s' ⟨f', k, ha', hk, h⟩
  refine ⟨f', ha', h.ended hk ?_ ?_ ?_⟩
  · intro i _ _ hlw
    exact ((hkey.neg_iff _ _).mp hlw).le
  · intro i _ _ he
    have heq := (hkey.eq_zero_iff _ _).mp he
    exact ⟨heq.ge, heq.le⟩
  · intro i _ _ hge
    rwa [hkey.neg_iff, not_lt] at hge

end

/-! ## Clearing the middle part of the pivots -/

theorem skipLess_spec {less w : ℤ} (ha : Cells a n f) (hless : 0 ≤ less) (hle : less ≤ w)
    (hw : w < n) (hst : compare (f w) pv ≠ 0) (hfl : w - less < fuel) :
    Succeeds (skipLess compare pv a fuel less) (fun less' => less ≤ less' ∧ less' ≤ w ∧
      ∀ i, less ≤ i → i < less' → compare (f i) pv = 0) := by
  induction fuel generalizing less with
  | zero => omega
  | succ fuel ih =>
    rw [skipLess]
    refine get_bind ha (by omega) ?_
    refine .ite (fun he => ?_) fun he => ?_
    · have hne : less ≠ w := by
        rintro rfl
        exact hst he
      apply (ih (show 0 ≤ less + 1 by omega) (by omega) (by omega)).imp
      rintro less' ⟨hl, hr, hal⟩
      refine ⟨by omega, hr, ?_⟩
      intro i hi hil
      by_cases heq : i = less
      · rw [heq]
        exact he
      · exact hal i (by omega) hil
    · refine .pure ⟨le_rfl, hle, ?_⟩
      intro i hi hil
      omega

theorem skipGreat_spec {great w : ℤ} (ha : Cells a n f) (hgreat : great < n) (hle : w ≤ great)
    (hw : 0 ≤ w) (hst : compare (f w) pv ≠ 0) (hfl : great - w < fuel) :
    Succeeds (skipGreat compare pv a fuel great) (fun great' => w ≤ great' ∧ great' ≤ great ∧
      ∀ i, great' < i → i ≤ great → compare (f i) pv = 0) := by
  induction fuel generalizing great with
  | zero => omega
  | succ fuel ih =>
    rw [skipGreat]
    refine get_bind ha (by omega) ?_
    refine .ite (fun he => ?_) fun he => ?_
    · have hne : great ≠ w := by
        rintro rfl
        exact hst he
      apply (ih (show great - 1 < n by omega) (by omega) (by omega)).imp
      rintro great' ⟨hl, hr, hal⟩
      refine ⟨hl, by omega, ?_⟩
      intro i hi hig
      by_cases heq : i = great
      · rw [heq]
        exact he
      · exact hal i hi (by omega)
    · refine .pure ⟨hle, le_rfl, ?_⟩
      intro i hi hig
      omega

/-- The pivots next to the middle part stop the two searches. -/
theorem clearPivots_spec (hkey : Ranks compare key) (ha : Cells s.a n f) (hless : 0 < s.less)
    (hle : s.less ≤ s.great + 1) (hgreat : s.great + 1 < n) (hne : key pv1 < key pv2)
    (hlw : key (f (s.less - 1)) = key pv1) (hhg : key (f (s.great + 1)) = key pv2)
    (hm : ∀ i, s.less ≤ i → i ≤ s.great → key pv1 ≤ key (f i) ∧ key (f i) ≤ key pv2) :
    Succeeds (clearPivots compare pv1 pv2 s) (fun s' => ∃ f', Cells s'.a n f' ∧
      Parted key s.less s.great (key pv1) (key pv2) f s'.less s'.great f') := by
  have hl := ha.length_eq
  have hst1 : compare (f (s.great + 1)) pv1 ≠ 0 := by
    rw [ne_eq, hkey.eq_zero_iff, hhg]
    exact hne.ne'
  have hst2 : compare (f (s.less - 1)) pv2 ≠ 0 := by
    rw [ne_eq, hkey.eq_zero_iff, hlw]
    exact hne.ne
  apply (skipLess_spec ha hless.le hle hgreat hst1 (by omega)).bind
  rintro less' ⟨hless', hless'w, hal1⟩
  apply (skipGreat_spec ha (by omega) (by omega) (by omega) hst2
    (by omega)).bind
  rintro great' ⟨hgreat'w, hgreat', hal2⟩
  have hle' : less' ≤ great' + 1 := by
    by_contra hlt
    have h1 := (hkey.eq_zero_iff _ _).mp (hal1 (less' - 1) (by omega) (by omega))
    have h2 := (hkey.eq_zero_iff _ _).mp (hal2 (less' - 1) (by omega) (by omega))
    exact hne.ne (h1.symm.trans h2)
  have hsr : Partitioned compare pv1 pv2 (fun c => decide (c = 0)) (fun c => decide (c = 0))
      less' great' f less' less' great' f := .start hle'
  have hnv : ∀ i, less' ≤ i → i ≤ great' → compare (f i) pv1 < 0 →
      decide (compare (f i) pv1 = 0) = true := by
    intro i hi hig hng
    have hge := (hm i (by omega) (by omega)).1
    rw [hkey.neg_iff] at hng
    exact absurd hng (not_lt.mpr hge)
  apply (partitionLoop_spec (s := { s with less := less', great := great' }) (by omega) (by omega)
    hnv ha hsr (by show great' - less' + 1 < ((s.a.length + 1 : ℕ) : ℤ); omega)
    (by omega)).imp
  rintro s' ⟨f', k, ha', hk, h⟩
  have hp : Parted key less' great' (key pv1) (key pv2) f s'.less s'.great f' := by
    apply h.ended hk
    · intro i _ _ he
      exact ((hkey.eq_zero_iff _ _).mp (of_decide_eq_true he)).le
    · intro i hi hig _
      apply h.rearranges.forall (P := fun x => key pv1 ≤ key x ∧ key x ≤ key pv2) _ hi hig
      intro j hj hjg
      exact hm j (by omega) (by omega)
    · intro i _ _ he
      exact ((hkey.eq_zero_iff _ _).mp (of_decide_eq_true he)).ge
  have hlo := hp.lo_le
  have hhi := hp.great_le
  refine ⟨f', ha', by omega, hp.less_le, hp.less_le, by omega,
    hp.rearranges.mono hless' hgreat', ?_, hp.middle, ?_⟩
  · intro i hi hil
    rcases lt_or_ge i less' with ho | hin
    · rw [hp.rearranges.outside (.inl ho)]
      exact ((hkey.eq_zero_iff _ _).mp (hal1 i hi ho)).le
    · exact hp.low i hin hil
  · intro i hi hig
    rcases lt_or_ge great' i with ho | hin
    · rw [hp.rearranges.outside (.inr ho)]
      exact ((hkey.eq_zero_iff _ _).mp (hal2 i ho hig)).ge
    · exact hp.high i hi hin

/-! ## The sorting network -/

section

variable {v : Fin 5 → E} {x y : E}

theorem key_order (hkey : Ranks compare key) (x y : E) :
    key (order compare x y).1 = min (key x) (key y) ∧
      key (order compare x y).2 = max (key x) (key y) := by
  rw [order]
  split
  next hp =>
    have hle := ((hkey.pos_iff x y).mp hp).le
    exact ⟨(min_eq_right hle).symm, (max_eq_left hle).symm⟩
  next hle =>
    have hle := (hkey.nonpos_iff x y).mp (not_lt.mp hle)
    exact ⟨(min_eq_left hle).symm, (max_eq_right hle).symm⟩

/-- A comparator on five cells. -/
def comparator (compare : E → E → ℤ) (v : Fin 5 → E) (p : Fin 5 × Fin 5) : Fin 5 → E :=
  update (update v p.1 (order compare (v p.1) (v p.2)).1) p.2 (order compare (v p.1) (v p.2)).2

def comparators : List (Fin 5 × Fin 5) :=
  [(0, 1), (3, 4), (0, 2), (1, 2), (0, 3), (2, 3), (1, 4), (1, 2), (3, 4)]

theorem network_eq (compare : E → E → ℤ) (v : Fin 5 → E) :
    network compare (v 0) (v 1) (v 2) (v 3) (v 4) =
      (comparators.foldl (comparator compare) v 0, comparators.foldl (comparator compare) v 1,
        comparators.foldl (comparator compare) v 2, comparators.foldl (comparator compare) v 3,
        comparators.foldl (comparator compare) v 4) := by
  simp [network, comparators, comparator]

theorem comparator_exchanges (compare : E → E → ℤ) (v : Fin 5 → E) (p : Fin 5 × Fin 5) :
    ∃ σ : Equiv.Perm (Fin 5), comparator compare v p = v ∘ σ := by
  rw [comparator, order]
  split
  · refine ⟨swap p.1 p.2, ?_⟩
    rw [Equiv.swap_comm, comp_swap_eq_update]
  · refine ⟨.refl _, ?_⟩
    rw [update_eq_self, update_eq_self]
    rfl

theorem foldl_comparator_exchanges (compare : E → E → ℤ) (ps : List (Fin 5 × Fin 5))
    (v : Fin 5 → E) : ∃ σ : Equiv.Perm (Fin 5), ps.foldl (comparator compare) v = v ∘ σ := by
  induction ps generalizing v with
  | nil => exact ⟨.refl _, rfl⟩
  | cons p ps ih =>
    obtain ⟨σ, hσ⟩ := comparator_exchanges compare v p
    obtain ⟨τ, hτ⟩ := ih (v ∘ σ)
    refine ⟨τ.trans σ, ?_⟩
    rw [foldl_cons, hσ, hτ]
    rfl

/-- The comparators on the fourth element, in terms of keys. -/
theorem third_le_fourth (a b c d e : κ) :
    max (min (min (max a b) (max (min a b) c)) (max d e))
        (min (max (max a b) (max (min a b) c)) (max (min (min a b) c) (min d e))) ≤
      min (max (max (max a b) (max (min a b) c)) (max (min (min a b) c) (min d e)))
        (max (min (max a b) (max (min a b) c)) (max d e)) := by
  have hf : min (min a b) c ≤ min (max a b) (max (min a b) c) :=
    le_min ((min_le_left _ _).trans min_le_max) min_le_max
  apply max_le
  · apply le_min
    · exact (min_le_left _ _).trans (min_le_max.trans (le_max_left _ _))
    · exact min_le_max
  · apply le_min
    · exact min_le_max
    · exact (min_le_right _ _).trans (max_le_max hf min_le_max)

/-- **The sorting network**: its outputs are its inputs in another order, with the three in the
middle in non-decreasing order. -/
theorem network_spec (hkey : Ranks compare key) (v : Fin 5 → E) :
    ∃ σ : Equiv.Perm (Fin 5),
      network compare (v 0) (v 1) (v 2) (v 3) (v 4) =
        (v (σ 0), v (σ 1), v (σ 2), v (σ 3), v (σ 4)) ∧
      key (v (σ 1)) ≤ key (v (σ 2)) ∧ key (v (σ 2)) ≤ key (v (σ 3)) := by
  obtain ⟨σ, hσ⟩ := foldl_comparator_exchanges compare comparators v
  have hn := network_eq compare v
  rw [hσ] at hn
  have h1 : key (network compare (v 0) (v 1) (v 2) (v 3) (v 4)).2.1 = key (v (σ 1)) :=
    congrArg (fun r => key r.2.1) hn
  have h2 : key (network compare (v 0) (v 1) (v 2) (v 3) (v 4)).2.2.1 = key (v (σ 2)) :=
    congrArg (fun r => key r.2.2.1) hn
  have h3 : key (network compare (v 0) (v 1) (v 2) (v 3) (v 4)).2.2.2.1 = key (v (σ 3)) :=
    congrArg (fun r => key r.2.2.2.1) hn
  refine ⟨σ, hn, ?_, ?_⟩
  · rw [← h1, ← h2]
    simp only [network, key_order hkey]
    exact min_le_max
  · rw [← h2, ← h3]
    simp only [network, key_order hkey]
    exact third_le_fourth _ _ _ _ _

end

/-! ## The pivots -/

section

variable {ix1 ix2 ix3 ix4 ix5 : ℤ}

/-- The cells when the elements of five cells are in another order. -/
theorem exists_exchanged (f : ℤ → E) (σ : Equiv.Perm (Fin 5)) (idx : Fin 5 → ℤ)
    (hid : Function.Injective idx) (hin : ∀ k, left ≤ idx k ∧ idx k ≤ rt) :
    ∃ g, Rearranges left rt f g ∧ (∀ k, g (idx k) = f (idx (σ k))) ∧
      ∀ i, (∀ k, i ≠ idx k) → g i = f i := by
  let ι : Fin 5 ↪ ℤ := ⟨idx, hid⟩
  have ho : ∀ i, (∀ k, i ≠ idx k) → σ.viaFintypeEmbedding ι i = i := by
    intro i hi
    apply Perm.viaFintypeEmbedding_apply_notMem_range
    rintro ⟨k, hk⟩
    exact hi k hk.symm
  refine ⟨f ∘ σ.viaFintypeEmbedding ι, ⟨_, ?_, fun _ => rfl⟩, ?_, ?_⟩
  · intro i hi
    apply ho
    rintro k rfl
    have := hin k
    omega
  · intro k
    exact congrArg f (Perm.viaFintypeEmbedding_apply_image σ ι k)
  · intro i hi
    exact congrArg f (ho i hi)

/-- The writes that follow the network, with the pivots in the free cells. -/
theorem free_cells (f g : ℤ → E) (h1 : left < ix1) (h12 : ix1 < ix2)
    (h23 : ix2 < ix3) (h34 : ix3 < ix4) (h45 : ix4 < ix5) (h5 : ix5 < rt)
    (hg : ∀ i, i ≠ ix1 → i ≠ ix2 → i ≠ ix3 → i ≠ ix4 → i ≠ ix5 → g i = f i) :
    let f3 := update (update (update f ix1 (g ix1)) ix3 (g ix3)) ix5 (g ix5)
    let f4 := update f3 ix2 (f3 left)
    let f5 := update f4 ix4 (f4 rt)
    update (update f5 left (g ix2)) rt (g ix4) =
      (g ∘ swap left ix2) ∘ swap rt ix4 ∧ f5 ix3 = g ix3 := by
  intro f3 f4 f5
  have hw : update (update f3 ix2 (g ix2)) ix4 (g ix4) = g := by
    funext i
    simp only [f3, Function.update_apply]
    split_ifs with e4 e2 e5 e3 e1
    · rw [e4]
    · rw [e2]
    · rw [e5]
    · rw [e3]
    · rw [e1]
    · exact (hg i e1 e2 e3 e4 e5).symm
  constructor
  · have hl : update f4 left (g ix2) = update f3 ix2 (g ix2) ∘ swap left ix2 :=
      update_hole f3 (g ix2) left ix2
    have hr : f4 rt = update f4 left (g ix2) rt := by
      rw [update_of_ne (by omega)]
    have hc : update f5 left (g ix2) =
        update (update f4 left (g ix2)) ix4 (update f4 left (g ix2) rt) := by
      rw [← hr]
      exact update_comm (by omega) _ _ _
    rw [hc, update_hole, hl, update_comp_swap, hw]
  · rw [← congrFun hw ix3]
    simp only [f5, f4]
    rw [update_of_ne (by omega), update_of_ne (by omega),
      update_of_ne (by omega), update_of_ne (by omega)]

end

/-- **The choice of the pivots**. With the pivots in the free cells `left` and `right`, the cells
are those of the list in another order. -/
theorem choosePivots_spec (hkey : Ranks compare key) (ha : Cells a n f) (hl : 0 ≤ left)
    (hrg : rt < n) (hlr : rt - left > 32) :
    Succeeds (choosePivots compare a left rt) (fun r => ∃ f', Cells r.1 n f' ∧
      Rearranges left rt f (update (update f' left r.2.1) rt r.2.2) ∧
      key r.2.1 ≤ key r.2.2 ∧
      ∃ i, left < i ∧ i < rt ∧ key r.2.1 ≤ key (f' i) ∧ key (f' i) ≤ key r.2.2) := by
  rw [choosePivots, tdiv_eq_ediv_of_nonneg (by omega), tdiv_eq_ediv_of_nonneg (by omega)]
  generalize h1 : left + (rt - left + 1) / 6 = ix1
  generalize h5 : rt - (rt - left + 1) / 6 = ix5
  generalize h2 : (left + rt) / 2 - (rt - left + 1) / 6 = ix2
  generalize h4 : (left + rt) / 2 + (rt - left + 1) / 6 = ix4
  generalize h3 : (left + rt) / 2 = ix3
  have l1 : left < ix1 := by omega
  have l12 : ix1 < ix2 := by omega
  have l23 : ix2 < ix3 := by omega
  have l34 : ix3 < ix4 := by omega
  have l45 : ix4 < ix5 := by omega
  have l5 : ix5 < rt := by omega
  clear h1 h2 h3 h4 h5
  refine get_bind ha (by omega) ?_
  refine get_bind ha (by omega) ?_
  refine get_bind ha (by omega) ?_
  refine get_bind ha (by omega) ?_
  refine get_bind ha (by omega) ?_
  let idx : Fin 5 → ℤ := ![ix1, ix2, ix3, ix4, ix5]
  have hm : StrictMono idx := by
    rw [Fin.strictMono_iff_lt_succ]
    intro k
    fin_cases k <;> assumption
  obtain ⟨σ, hnt, h12, h23⟩ := network_spec hkey (fun k => f (idx k))
  have hin : ∀ k, left ≤ idx k ∧ idx k ≤ rt := by
    intro k
    have hge := hm.monotone (Fin.zero_le k)
    have hle := hm.monotone (Fin.le_last k)
    have hfs : idx 0 = ix1 := rfl
    have hls : idx (Fin.last 4) = ix5 := rfl
    omega
  obtain ⟨g, hrn, hg, hsm⟩ := exists_exchanged f σ idx hm.injective hin
  rw [← hg 1, ← hg 2] at h12
  rw [← hg 2, ← hg 3] at h23
  rw [← hg 0, ← hg 1, ← hg 2, ← hg 3, ← hg 4] at hnt
  have hnt' : network compare (f ix1) (f ix2) (f ix3) (f ix4) (f ix5) =
      (g ix1, g ix2, g ix3, g ix4, g ix5) := hnt
  have ho : ∀ i, i ≠ ix1 → i ≠ ix2 → i ≠ ix3 → i ≠ ix4 → i ≠ ix5 → g i = f i := by
    intro i e1 e2 e3 e4 e5
    apply hsm
    intro k
    fin_cases k <;> assumption
  rw [hnt']
  apply (set_succeeds ha (by omega) (g ix1)).bind
  intro a1 ha1
  apply (set_succeeds ha1 (by omega) (g ix3)).bind
  intro a2 ha2
  apply (set_succeeds ha2 (by omega) (g ix5)).bind
  intro a3 ha3
  apply (copy_succeeds ha3 (by omega)).bind
  intro a4 ha4
  apply (copy_succeeds ha4 (by omega)).bind
  intro a5 ha5
  obtain ⟨hfr, hmd⟩ := free_cells f g l1 l12 l23 l34 l45 l5 ho
  refine .pure ⟨_, ha5, ?_, h12.trans h23, ix3, by omega, by omega, ?_⟩
  · rw [hfr]
    apply hrn.trans
    apply (rearranges_swap g (i := left) (j := ix2)).trans
    exact rearranges_swap _
  · rw [hmd]
    exact ⟨h12, h23⟩

theorem placePivots_spec {f₀ f1 : ℤ → E} (ha : Cells s.a n f) (hlf : 0 ≤ left) (hrg : rt < n)
    (hrn : Rearranges left rt f₀ (update (update f1 left pv1) rt pv2))
    (h : Parted key (left + 1) (rt - 1) (key pv1) (key pv2) f1 s.less s.great f)
    (hle : key pv1 ≤ key pv2) (hlr : left < rt) :
    Succeeds (placePivots left rt pv1 pv2 s) (fun a => ∃ f', Cells a n f' ∧
      Parted key left rt (key pv1) (key pv2) f₀ (s.less - 1) (s.great + 1) f' ∧
      key (f' (s.less - 1)) = key pv1 ∧ key (f' (s.great + 1)) = key pv2) := by
  have hlo := h.lo_le
  have hless := h.less_le
  have hgreat := h.great_le
  apply (copy_succeeds ha (by omega)).bind
  intro a1 ha1
  apply (set_succeeds ha1 (by omega) pv1).bind
  intro a2 ha2
  rw [update_hole] at ha2
  apply (copy_succeeds ha2 (by omega)).bind
  intro a3 ha3
  apply (set_succeeds ha3 (by omega) pv2).imp
  intro a4 ha4
  rw [update_hole, update_comp_swap] at ha4
  refine ⟨_, ha4, ?_⟩
  generalize hg : update (update f left pv1) rt pv2 = g
  -- The cells with the pivots at both ends.
  have hgl : g left = pv1 := by
    rw [← hg, update_of_ne (by omega), update_self]
  have hgr : g rt = pv2 := by
    rw [← hg, update_self]
  have hgf : ∀ i, left < i → i < rt → g i = f i := by
    intro i hi hir
    rw [← hg, update_of_ne (by omega), update_of_ne (by omega)]
  have he : Parted key left rt (key pv1) (key pv2) f₀ s.less s.great g := by
    refine ⟨by omega, hless, hless, by omega, hrn.trans ?_, ?_, ?_, ?_⟩
    · rw [← hg]
      exact ((h.rearranges.update (by omega) pv1).update (by omega) pv2).mono (by omega)
        (by omega)
    · intro i hi hil
      by_cases heq : i = left
      · rw [heq, hgl]
      · rw [hgf i (by omega) (by omega)]
        exact h.low i (by omega) hil
    · intro i hi hik hig
      rw [hgf i (by omega) (by omega)]
      exact h.middle i hi hik hig
    intro i hi hir
    by_cases heq : i = rt
    · rw [heq, hgr]
    · rw [hgf i (by omega) (by omega)]
      exact h.high i hi (by omega)
  have hfr : ((g ∘ swap (s.less - 1) left) ∘ swap (s.great + 1) rt) (s.less - 1) = pv1 := by
    rw [comp_swap_of_ne, comp_swap_left, hgl]
  have hls : ((g ∘ swap (s.less - 1) left) ∘ swap (s.great + 1) rt) (s.great + 1) = pv2 := by
    rw [comp_swap_left, comp_swap_of_ne, hgr]
  refine ⟨Parted.widen ?_ hle (by rw [hfr]) (by rw [hls]) (by omega) (by omega),
    by rw [hfr], by rw [hls]⟩
  have hsw := he.rearrange (r := s.less - 1)
    (rearranges_swap g (i := s.less - 1) (j := left)) le_rfl (by omega) (by omega)
  exact hsw.rearrange (l := s.great + 1) (rearranges_swap _) (by omega) le_rfl (by omega)

/-! ## Recursion -/

/-- The recursive calls sort every smaller range. -/
def SortsBelow (key : E → κ) (compare : E → E → ℤ) (n fuel : Nat) : Prop :=
  ∀ {a : List E} {f : ℤ → E} {left rt : ℤ}, Cells a n f → 0 ≤ left → rt < n →
    rt - left + 1 < fuel → 0 < fuel →
    Succeeds (doSort compare fuel a left rt) (SortsTo key left rt n f)

/-- The recursive calls on the outer parts, before `r` sorts the middle part. -/
theorem outerParts_spec {f₀ f1 : ℤ → E} {r : List E → Except SortError (List E)}
    (hsr : SortsBelow key compare n fuel) (hfl : rt - left < fuel) (ha : Cells s.a n f)
    (hl : 0 ≤ left) (hrg : rt < n) (hlr : left < rt)
    (hrn : Rearranges left rt f₀ (update (update f1 left pv1) rt pv2))
    (h : Parted key (left + 1) (rt - 1) (key pv1) (key pv2) f1 s.less s.great f)
    (hle : key pv1 ≤ key pv2)
    (hrs : ∀ b g, Cells b n g → Parted key left rt (key pv1) (key pv2) f₀ (s.less - 1)
      (s.great + 1) g → key (g (s.less - 1)) = key pv1 → key (g (s.great + 1)) = key pv2 →
      Succeeds (r b) (SortsTo key (s.less - 1) (s.great + 1) n g)) :
    Succeeds (do
      let a ← placePivots left rt pv1 pv2 s
      let a ← doSort compare fuel a left (s.less - 2)
      let a ← doSort compare fuel a (s.great + 2) rt
      r a) (SortsTo key left rt n f₀) := by
  have hlo := h.lo_le
  have hless := h.less_le
  have hgreat := h.great_le
  have hlw : s.less - 1 - 1 = s.less - 2 := by omega
  have hhg : s.great + 1 + 1 = s.great + 2 := by omega
  apply (placePivots_spec ha hl hrg hrn h hle hlr).bind
  rintro a3 ⟨f3, ha3, h3, hfr, hls⟩
  apply (hsr ha3 hl (show s.less - 2 < n by omega) (by omega) (by omega)).bind
  rintro a4 ⟨f4, ha4, hr4, hs4⟩
  apply (hsr ha4 (show 0 ≤ s.great + 2 by omega) hrg (by omega) (by omega)).bind
  rintro a5 ⟨f5, ha5, hr5, hs5⟩
  have h4 := h3.rearrange hr4 le_rfl (by omega) (by omega)
  have h5 := h4.rearrange hr5 (by omega) le_rfl (by omega)
  have hsm : ∀ j, s.less - 1 ≤ j → j ≤ s.great + 1 → f5 j = f3 j := by
    intro j hj hjg
    rw [hr5.outside (by omega), hr4.outside (by omega)]
  apply (hrs a5 f5 ha5 h5 (by rw [hsm _ le_rfl (by omega), hfr])
    (by rw [hsm _ (by omega) le_rfl, hls])).imp
  rintro a6 ⟨f6, ha6, hr6, hs6⟩
  have h6 := h5.rearrange hr6 (by omega) (by omega) (by omega)
  refine ⟨f6, ha6, h6.rearranges, h6.sortedOn hle ?_ hs6 ?_⟩
  · rw [hlw]
    apply hs4.congr
    intro j hj hjl
    rw [hr6.outside (by omega), hr5.outside (by omega)]
  · rw [hhg]
    apply hs5.congr
    intro j hj hjr
    rw [hr6.outside (by omega)]

/-- The middle part, cleared of the pivots. -/
theorem clearedPart_spec (hsr : SortsBelow key compare n fuel) (hkey : Ranks compare key)
    (ha : Cells s.a n f) (hless : 0 < s.less) (hle : s.less ≤ s.great + 1)
    (hgreat : s.great + 1 < n) (hfl : s.great - s.less + 1 < fuel) (hne : key pv1 < key pv2)
    (hfr : key (f (s.less - 1)) = key pv1) (hl : key (f (s.great + 1)) = key pv2)
    (hm : ∀ i, s.less ≤ i → i ≤ s.great → key pv1 ≤ key (f i) ∧ key (f i) ≤ key pv2) :
    Succeeds (do
      let s ← clearPivots compare pv1 pv2 s
      doSort compare fuel s.a s.less s.great) (SortsTo key s.less s.great n f) := by
  apply (clearPivots_spec hkey ha hless hle hgreat hne hfr hl hm).bind
  rintro s' ⟨f1, ha1, h1⟩
  have hlo := h1.lo_le
  have hlg := h1.less_le
  have hhi := h1.great_le
  apply (hsr ha1 (show 0 ≤ s'.less by omega) (show s'.great < n by omega) (by omega)
    (by omega)).imp
  rintro b ⟨f2, hb, hr2, hs2⟩
  have h2 := h1.rearrange hr2 hlo hhi (by omega)
  have hbt : ∀ i, s.less ≤ i → i ≤ s.great → key pv1 ≤ key (f2 i) ∧ key (f2 i) ≤ key pv2 := by
    intro i hi hig
    exact h2.rearranges.forall (P := fun x => key pv1 ≤ key x ∧ key x ≤ key pv2) hm hi hig
  refine ⟨f2, hb, h2.rearranges, h2.sortedOn hne.le ?_ hs2 ?_⟩
  · intro i j hi hij hj
    exact (h2.low i hi (by omega)).trans (hbt j (by omega) (by omega)).1
  · intro i j hi hij hj
    exact (hbt i (by omega) (by omega)).2.trans (h2.high j (by omega) hj)

/-- The pivots stand before and behind the middle part. -/
theorem SortsTo.between {less great : ℤ} (h : SortsTo key less great n f a)
    (hfr : key (f (less - 1)) = key pv1) (hl : key (f (great + 1)) = key pv2)
    (hm : ∀ i, less ≤ i → i ≤ great → key pv1 ≤ key (f i) ∧ key (f i) ≤ key pv2)
    (hle : key pv1 ≤ key pv2) (hlg : less ≤ great + 1) :
    SortsTo key (less - 1) (great + 1) n f a := by
  obtain ⟨g, ha, hr, hs⟩ := h
  rw [← hr.outside (by omega)] at hfr hl
  have hp : Parted key (less - 1) (great + 1) (key pv1) (key pv2) g less great g := by
    refine ⟨by omega, hlg, hlg, by omega, .refl _ _ _, ?_, ?_, ?_⟩
    · intro i hi hil
      rw [show i = less - 1 by omega, hfr]
    · intro i hi _ hig
      exact hr.forall (P := fun x => key pv1 ≤ key x ∧ key x ≤ key pv2) hm hi hig
    · intro i hi hig
      rw [show i = great + 1 by omega, hl]
  exact ⟨g, ha, hr.mono (by omega) (by omega), hp.sortedOn hle (sortedOn_of_le le_rfl) hs
    (sortedOn_of_le le_rfl)⟩

/-- **A range is put in order**. -/
theorem doSort_spec (hkey : Ranks compare key) : SortsBelow key compare n fuel := by
  induction fuel with
  | zero =>
    intro a f left rt _ _ _ _ hps
    omega
  | succ fuel ih =>
    intro a f left rt ha hl hrg hfl _
    rw [doSort]
    refine .ite (fun hsm => ?_) fun hsm => ?_
    · exact insertionSort_spec hkey hl hrg ha
    rw [INSERTION_SORT_THRESHOLD] at hsm
    apply (choosePivots_spec hkey ha hl hrg (by omega)).bind
    rintro ⟨a1, pv1, pv2⟩ ⟨f1, ha1, hrn, hle, i, hli, hir, h1, h2⟩
    dsimp only at ha1 hrn hle h1 h2 ⊢
    refine .ite (fun he => ?_) fun he => ?_
    · have hk := (hkey.eq_zero_iff _ _).mp he
      have hp : compare (f1 i) pv1 = 0 :=
        (hkey.eq_zero_iff _ _).mpr (le_antisymm (h2.trans hk.ge) h1)
      apply (equalPartition_spec (s := ⟨a1, left + 1, rt - 1⟩) hkey ha1
        (by show 0 ≤ left + 1; omega) (by show left + 1 ≤ rt - 1 + 1; omega)
        (by show rt - 1 < (n : ℤ); omega)
        ⟨i, hli, by show i ≤ rt - 1; omega, hp⟩).bind
      rintro s ⟨f2, ha2, h⟩
      have hal := outerParts_spec (r := pure) ih (by omega) ha2 hl hrg (by omega)
        hrn (by rw [← hk]; exact h) hle (by
          intro b g hb hg _ _
          rw [← hk] at hg
          exact .pure ⟨g, hb, .refl _ _ _, hg.sortedOn_middle⟩)
      simp only [bind_pure] at hal
      exact hal
    · have hlt : key pv1 < key pv2 := by
        apply lt_of_le_of_ne hle
        intro heq
        exact he ((hkey.eq_zero_iff _ _).mpr heq)
      apply (partition_spec hkey ha1 (by show 0 ≤ left + 1; omega)
        (by show left + 1 ≤ rt - 1 + 1; omega) (by show rt - 1 < (n : ℤ); omega)).bind
      rintro s ⟨f2, ha2, h⟩
      apply outerParts_spec ih (by omega) ha2 hl hrg (by omega) hrn h hle
      intro b g hb hg hfr hls
      have hlo : left + 1 ≤ s.less := h.lo_le
      have hlg := h.less_le
      have hhi : s.great ≤ rt - 1 := h.great_le
      have hm : ∀ i, s.less ≤ i → i ≤ s.great → key pv1 ≤ key (g i) ∧ key (g i) ≤ key pv2 := by
        intro i hi hig
        exact hg.middle i (by omega) (by omega) (by omega)
      split
      · apply (clearedPart_spec (s := { s with a := b }) ih hkey hb (by show 0 < s.less; omega) hlg
          (by show s.great + 1 < (n : ℤ); omega) (by show s.great - s.less + 1 < (fuel : ℤ); omega)
          hlt hfr hls hm).imp
        intro b' hb'
        exact hb'.between hfr hls hm hle hlg
      · apply (ih hb (by omega) (by omega) (by omega) (by omega)).imp
        intro b' hb'
        exact hb'.between hfr hls hm hle hlg

/-! ## Lists -/

/-- The cells of a list, with an element for those outside. -/
def cells (a : List E) (x : E) (i : ℤ) : E := a[i.toNat]?.getD x

theorem cells_cells (a : List E) (x : E) : Cells a a.length (cells a x) := by
  refine ⟨rfl, ?_⟩
  intro i hi hn
  have hlt : i.toNat < a.length := by omega
  rw [cells, getElem?_eq_getElem hlt]
  rfl

theorem Cells.eq_stretch (ha : Cells a n f) : a = stretch f 0 n := by
  apply ext_getElem?
  intro i
  rcases lt_or_ge i n with hi | hi
  · have hg := ha.getElem i (by omega) (by omega)
    rw [toNat_natCast] at hg
    rw [hg, stretch, getElem?_map, getElem?_range hi]
    simp
  · rw [getElem?_eq_none (by rw [ha.length_eq]; exact hi),
      getElem?_eq_none (by rw [length_stretch]; exact hi)]

/-- The range is put in order, and the elements before and behind it stay. -/
theorem doSort_range {st ct : Nat} (h : IsTotalPreorder compare) (a : List E)
    (hn : st + ct ≤ a.length) :
    ∃ mid, doSort compare (a.length + 1) a st (st + ct - 1) =
        .ok (a.take st ++ mid ++ a.drop (st + ct)) ∧
      mid.Perm ((a.drop st).take ct) ∧ mid.Pairwise (fun x y => compare x y ≤ 0) := by
  rcases a with _ | ⟨x, rest⟩
  · obtain rfl : st = 0 := by simp only [length_nil] at hn; omega
    obtain rfl : ct = 0 := by simp only [length_nil] at hn; omega
    exact ⟨[], rfl, .refl _, .nil⟩
  generalize x :: rest = a at hn ⊢
  obtain ⟨κ, _, key, hkey⟩ := exists_key h
  obtain ⟨q, hq⟩ := Nat.exists_eq_add_of_le hn
  obtain ⟨f, ha⟩ : ∃ f, Cells a a.length f := ⟨_, cells_cells a x⟩
  obtain ⟨a', heq, f', ha', hr, hs⟩ :=
    doSort_spec hkey ha (show (0 : ℤ) ≤ st by omega)
      (show (st + ct - 1 : ℤ) < a.length by omega)
      (show (st + ct - 1 : ℤ) - st + 1 < (a.length + 1 : ℕ) by omega) (by omega)
  rw [heq]
  have hsp : ∀ g : ℤ → E, stretch g 0 a.length =
      stretch g 0 st ++ stretch g st ct ++ stretch g (st + ct : ℕ) q := by
    intro g
    rw [hq, stretch_add, stretch_add, Int.zero_add, Int.zero_add]
  have hst := ha.eq_stretch.trans (hsp _)
  have hb : stretch f' 0 st = stretch f 0 st := by
    apply stretch_congr
    intro i hi his
    exact hr.outside (by omega)
  have hbh : stretch f' (st + ct : ℕ) q = stretch f (st + ct : ℕ) q := by
    apply stretch_congr
    intro i hi hiq
    exact hr.outside (by omega)
  have ht : a.take st = stretch f 0 st := by
    rw [hst, append_assoc, take_left' (length_stretch _ _ _)]
  have hd : a.drop (st + ct) = stretch f (st + ct : ℕ) q := by
    rw [hst, drop_left']
    rw [length_append, length_stretch, length_stretch]
  have hm : (a.drop st).take ct = stretch f st ct := by
    rw [hst, append_assoc, drop_left' (length_stretch _ _ _), take_left' (length_stretch _ _ _)]
  refine ⟨stretch f' st ct, ?_, ?_, ?_⟩
  · rw [ha'.eq_stretch, hsp, hb, hbh, ht, hd]
  · rw [hm]
    exact hr.stretch_perm
  · apply hs.stretch_pairwise.imp
    intro y z hyz
    exact (hkey.nonpos_iff y z).mpr hyz

/-- **The sort**: for every comparison function that is a total preorder, every list and every range
of it is put in order, and no element outside the range moves. -/
theorem sort_spec (h : IsTotalPreorder compare) (a : List E) :
    (∃ a', sort compare a = .ok a' ∧ a'.Perm a ∧ a'.Pairwise (fun x y => compare x y ≤ 0)) ∧
    ∀ start stop : Int, 0 ≤ start → start ≤ stop → stop ≤ a.length →
      ∃ mid, sortRange compare a start stop = .ok (a.take start.toNat ++ mid ++ a.drop stop.toNat) ∧
        mid.Perm ((a.drop start.toNat).take (stop - start).toNat) ∧
        mid.Pairwise (fun x y => compare x y ≤ 0) := by
  constructor
  · obtain ⟨mid, heq, hpr, hsr⟩ := doSort_range h a (show 0 + a.length ≤ a.length by omega)
    simp only [take_zero, drop_zero, Nat.zero_add, drop_length, nil_append,
      List.append_nil, take_length, Int.natCast_zero, Int.zero_add] at heq hpr
    exact ⟨mid, heq, hpr, hsr⟩
  · intro start stop hst hle hsp
    obtain ⟨p, rfl⟩ := eq_ofNat_of_zero_le hst
    obtain ⟨q, rfl⟩ := eq_ofNat_of_zero_le (hst.trans hle)
    have hpq : p ≤ q := by omega
    obtain ⟨count, rfl⟩ := Nat.exists_eq_add_of_le hpq
    obtain ⟨mid, heq, hpr, hsr⟩ := doSort_range h a (show p + count ≤ a.length by omega)
    refine ⟨mid, ?_, ?_, hsr⟩
    · rw [sortRange, if_neg (by omega), natCast_add, heq]
      rfl
    · rw [show ((p + count : ℕ) : ℤ) - (p : ℤ) = count by omega]
      exact hpr

theorem isTotalPreorder_sub : IsTotalPreorder (fun x y : Int => x - y) := by
  constructor
  · intro x y
    omega
  · intro x y z
    omega

/-- Longer than what is sorted by insertion. -/
def fortyKeys : List Int := (List.range 40).map fun n => ((7 * n % 11 : Nat) : Int)

theorem sort_spec_forty :
    (∃ a', sort (fun x y : Int => x - y) fortyKeys = .ok a' ∧ a'.Perm fortyKeys ∧
      a'.Pairwise (fun x y => x - y ≤ 0)) ∧
    ∃ mid, sortRange (fun x y : Int => x - y) fortyKeys 2 38 =
        .ok (fortyKeys.take 2 ++ mid ++ fortyKeys.drop 38) ∧
      mid.Perm ((fortyKeys.drop 2).take 36) ∧ mid.Pairwise (fun x y => x - y ≤ 0) := by
  obtain ⟨hsr, hr⟩ := sort_spec isTotalPreorder_sub fortyKeys
  exact ⟨hsr, hr 2 38 (by decide) (by decide) (by decide)⟩

end Internal.Sort
