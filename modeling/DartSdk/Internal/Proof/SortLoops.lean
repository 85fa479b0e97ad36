import DartSdk.Internal.Sort
import DartSdk.Lib.Fallible
import DartSdk.Lib.Rearrange

/-!
# The loops of the sort

A list is seen as its cells (`Cells`), a function on the integers of which the list has the values
at its indices. Each loop rearranges cells of its range:

* `insertionSort_spec`: insertion sort puts the range in order.
* `equalLoop_spec`: the partition by one pivot.
* `partitionLoop_spec`: the partition by two pivots.
-/

namespace Internal.Sort

open Fallible Rearrange List
open Equiv (swap)
open Function (update update_eq_self update_idem update_of_ne update_self)

variable {E : Type} {a : List E} {n : Nat} {f : ℤ → E} {i j : ℤ} {x : E}

/-! ## Cells -/

/-- The list has the values of the cells. -/
structure Cells (a : List E) (n : Nat) (f : ℤ → E) : Prop where
  length_eq : a.length = n
  getElem : ∀ i : ℤ, 0 ≤ i → i < n → a[i.toNat]? = some (f i)

section
variable (ha : Cells a n f) (hi : 0 ≤ i ∧ i < n)
include ha hi

theorem get_eq : get a i = .ok (f i) := by
  rw [get, if_neg (by omega), ha.getElem i hi.1 hi.2]

theorem get_bind {β : Type} {k : E → Except SortError β} {P : β → Prop}
    (h : Succeeds (k (f i)) P) : Succeeds (get a i >>= k) P := by
  rw [get_eq ha hi]
  exact h

theorem set_succeeds (x : E) : Succeeds (set a i x) (fun a' => Cells a' n (update f i x)) := by
  refine ⟨a.set i.toNat x, ?_, ?_, ?_⟩
  · rw [set, if_pos (by rw [ha.length_eq]; exact hi)]
  · rw [length_set, ha.length_eq]
  intro j hj hn
  have hl := ha.length_eq
  by_cases hij : j = i
  · subst hij
    rw [update_self, getElem?_set_self (by omega)]
  · rw [update_of_ne hij, getElem?_set_ne (by omega), ha.getElem j hj hn]

theorem copy_succeeds (hj : 0 ≤ j ∧ j < n := by omega) :
    Succeeds (copy a i j) (fun a' => Cells a' n (update f i (f j))) := by
  refine get_bind ha hj ?_
  exact set_succeeds ha hi (f j)

end

/-! ## Insertion sort -/

variable {κ : Type*} [LinearOrder κ] {key : E → κ} {compare : E → E → ℤ} {left rt k : ℤ}
  {fuel : Nat} {f' : ℤ → E} {s : Partition E}

/-- The cells when the element at `j` has found its place `j'`, where it is not yet written. -/
structure Shifted (key : E → κ) (left j : ℤ) (el : E) (f f' : ℤ → E) (j' : ℤ) : Prop where
  left_le : left ≤ j'
  le_right : j' ≤ j
  rearranges : Rearranges left j (update f j el) (update f' j' el)
  shifted : ∀ i, j' < i → i ≤ j → f' i = f (i - 1)
  same : ∀ i, i ≤ j' ∨ j < i → f' i = f i
  greater : ∀ i, j' ≤ i → i < j → key el < key (f i)
  stops : j' = left ∨ key (f (j' - 1)) ≤ key el

theorem insertionShift_spec (hkey : Ranks compare key) (hleft : 0 ≤ left) {el : E}
    (ha : Cells a n f) (hj : left ≤ j) (hn : j < n) (hfl : j - left < fuel) :
    Succeeds (insertionShift compare left el fuel a j)
      (fun r => ∃ f', Cells r.1 n f' ∧ Shifted key left j el f f' r.2) := by
  induction fuel generalizing a f j with
  | zero => omega
  | succ fuel ih =>
    rw [insertionShift]
    have hst (hsp : j = left ∨ key (f (j - 1)) ≤ key el) :
        ∃ f', Cells a n f' ∧ Shifted key left j el f f' j := by
      refine ⟨f, ha, hj, le_rfl, .refl _ _ _, ?_, fun _ _ => rfl, ?_, hsp⟩
      · intro i hji hij
        omega
      · intro i hji hij
        omega
    refine .ite (fun hgt => ?_) fun hgt => ?_
    · refine get_bind ha (by omega) ?_
      refine .ite (fun hc => ?_) fun hc => ?_
      · have hls := (hkey.pos_iff _ _).mp hc
        apply (copy_succeeds ha (by omega)).bind
        intro a' ha'
        apply (ih ha' (by omega) (by omega) (by omega)).imp
        rintro r ⟨f', hr, hsh⟩
        refine ⟨f', hr, hsh.left_le, by have := hsh.le_right; omega, ?_, ?_, ?_, ?_, ?_⟩
        · have hh : update (update f j (f (j - 1))) (j - 1) el =
              update f j el ∘ swap (j - 1) j := update_hole f el (j - 1) j
          apply (rearranges_swap (update f j el) (i := j - 1) (j := j)).trans
          rw [← hh]
          exact hsh.rearranges.mono le_rfl (by omega)
        · intro i hri hij
          by_cases hl : i = j
          · rw [hsh.same i (by omega), hl, update_self]
          · rw [hsh.shifted i hri (by omega), update_of_ne (by omega)]
        · intro i hi
          have hle := hsh.le_right
          rw [hsh.same i (by omega), update_of_ne (by omega)]
        · intro i hri hij
          by_cases hl : i = j - 1
          · rw [hl]
            exact hls
          · have hg := hsh.greater i hri (by omega)
            rwa [update_of_ne (by omega)] at hg
        · have hle := hsh.le_right
          have hso := hsh.stops
          rwa [update_of_ne (by omega)] at hso
      · exact .pure (hst (.inr ((hkey.nonpos_iff _ _).mp (not_lt.mp hc))))
    · exact .pure (hst (.inl (by omega)))

variable {j' g top less' gt' w : ℤ}

/-- The element in its place leaves the range in order. -/
theorem Shifted.sortedOn {el : E} (h : Shifted key left j el f f' j')
    (hf : SortedOn key left (j - 1) f) : SortedOn key left j (update f' j' el) := by
  have hle := h.le_right
  have hleft := h.left_le
  -- The three kinds of cells: before the place, the place, and behind it.
  have hbf : ∀ i, i < j' → update f' j' el i = f i := by
    intro i hi
    rw [update_of_ne (by omega), h.same i (by omega)]
  have hb : ∀ i, j' < i → i ≤ j → update f' j' el i = f (i - 1) := by
    intro i hi hij
    rw [update_of_ne (by omega), h.shifted i hi hij]
  have hl : ∀ i, left ≤ i → i < j' → key (f i) ≤ key el := by
    intro i hi hij
    rcases h.stops with hst | hst
    · omega
    · exact (hf i (j' - 1) hi (by omega) (by omega)).trans hst
  apply SortedOn.append (m := j' - 1) (key el)
  · intro p q hp hpq hq
    rw [hbf p (by omega), hbf q (by omega)]
    exact hf p q hp hpq (by omega)
  · intro p q hp hpq hq
    by_cases hpj : p = j'
    · rw [hpj, update_self]
      by_cases hqj : q = j'
      · rw [hqj, update_self]
      · rw [hb q (by omega) hq]
        exact (h.greater (q - 1) (by omega) (by omega)).le
    · rw [hb p (by omega) (by omega), hb q (by omega) hq]
      exact hf (p - 1) (q - 1) (by omega) (by omega) (by omega)
  · intro p hp hpj
    rw [hbf p (by omega)]
    exact hl p hp (by omega)
  intro p hp hpj
  by_cases hpj' : p = j'
  · rw [hpj', update_self]
  · rw [hb p (by omega) hpj]
    exact (h.greater (p - 1) (by omega) (by omega)).le

/-- The list has the cells in order from `left` to `right`, and the other cells unchanged. -/
def SortsTo (key : E → κ) (left rt : ℤ) (n : Nat) (f : ℤ → E) (a : List E) : Prop :=
  ∃ f', Cells a n f' ∧ Rearranges left rt f f' ∧ SortedOn key left rt f'

section
variable (hkey : Ranks compare key) (hleft : 0 ≤ left) (hright : rt < n) (ha : Cells a n f)
include hkey hleft hright ha

theorem insertionLoop_spec (hi : left < i) (hf : SortedOn key left (i - 1) f)
    (hfl : rt - i + 1 < fuel) (hps : 0 < fuel) :
    Succeeds (insertionLoop compare left rt fuel a i) (SortsTo key left rt n f) := by
  induction fuel generalizing a f i with
  | zero => omega
  | succ fuel ih =>
    rw [insertionLoop]
    refine .ite (fun hir => ?_) fun hir => ?_
    · refine get_bind ha (by omega) ?_
      have hl := ha.length_eq
      apply (insertionShift_spec hkey hleft ha (by omega) (by omega) (by omega)).bind
      rintro ⟨a', j'⟩ ⟨f', ha', hsh⟩
      have hle := hsh.le_right
      have hge := hsh.left_le
      apply (set_succeeds ha' (by omega) (f i)).bind
      intro a'' ha''
      have hsr := hsh.sortedOn hf
      have hr := hsh.rearranges
      rw [update_eq_self] at hr
      apply (ih ha'' (by omega) (by rwa [Int.add_sub_cancel]) (by omega) (by omega)).imp
      rintro b ⟨g, hb, hg, hsr'⟩
      exact ⟨g, hb, (hr.mono le_rfl hir).trans hg, hsr'⟩
    · refine .pure ⟨f, ha, .refl _ _ _, ?_⟩
      intro p q hp hpq hq
      exact hf p q hp hpq (by omega)

/-- **Insertion sort**. -/
theorem insertionSort_spec :
    Succeeds (insertionSort compare a left rt) (SortsTo key left rt n f) := by
  have hl := ha.length_eq
  apply insertionLoop_spec hkey hleft hright ha (by omega) (sortedOn_of_le (by omega)) (by omega)
  omega

end

/-! ## Exchanges -/

section
variable (ha : Cells s.a n f) (hk : 0 ≤ k ∧ k < n)
include ha hk

theorem lower_succeeds (hl : 0 ≤ s.less ∧ s.less < n := by omega) :
    Succeeds (lower s k (f k)) (fun s' => ∃ a', s' = ⟨a', s.less + 1, s.great⟩ ∧
      Cells a' n (f ∘ swap k s.less)) := by
  rw [lower]
  refine .ite (fun hne => ?_) fun hne => ?_
  · apply (copy_succeeds ha hk hl).bind
    intro a1 ha1
    apply (set_succeeds ha1 hl (f k)).bind
    intro a2 ha2
    rw [update_update_eq_swap] at ha2
    exact .pure ⟨a2, rfl, ha2⟩
  · rw [not_not] at hne
    refine .pure ⟨s.a, rfl, ?_⟩
    rw [hne, Equiv.swap_self]
    exact ha

theorem exchange_succeeds (hg : 0 ≤ s.great ∧ s.great < n := by omega) :
    Succeeds (exchange s k (f k)) (fun s' => ∃ a', s' = ⟨a', s.less, s.great - 1⟩ ∧
      Cells a' n (f ∘ swap k s.great)) := by
  apply (copy_succeeds ha hk hg).bind
  intro a1 ha1
  apply (set_succeeds ha1 hg (f k)).bind
  intro a2 ha2
  rw [update_update_eq_swap] at ha2
  exact .pure ⟨a2, rfl, ha2⟩

theorem tripleExchange_succeeds (hl : 0 ≤ s.less ∧ s.less < n := by omega)
    (hg : 0 ≤ s.great ∧ s.great < n := by omega) (hne : s.great ≠ s.less := by omega) :
    Succeeds (tripleExchange s k (f k)) (fun s' => ∃ a', s' = ⟨a', s.less + 1, s.great - 1⟩ ∧
      Cells a' n ((f ∘ swap k s.less) ∘ swap s.less s.great)) := by
  apply (copy_succeeds ha hk hl).bind
  intro a1 ha1
  apply (copy_succeeds ha1 hl hg).bind
  intro a2 ha2
  apply (set_succeeds ha2 hg (f k)).bind
  intro a3 ha3
  refine .pure ⟨a3, rfl, ?_⟩
  -- The element at `k` passes through the cell `less` on its way to `great`.
  have hsw := update_update_eq_swap (f ∘ swap k s.less) s.less s.great
  rw [← update_update_eq_swap f k s.less, update_self, update_of_ne hne,
    update_idem, update_update_eq_swap] at hsw
  rw [← hsw]
  exact ha3

end

theorem forall_below {P : ℤ → Prop} (h : ∀ i, g < i → i ≤ top → P i) (hg : P g) : ∀ i, g - 1 < i → i
    ≤ top → P i := by
  intro i hi hit
  by_cases heq : i = g
  · rwa [heq]
  · exact h i (by omega) hit

/-! ## The partition by two pivots -/

section

variable {pivot1 pivot2 : E} {isLow isHigh : ℤ → Bool} {lo hi less great : ℤ} {f₀ : ℤ → E}

/-- The cells after the `while` loop: either all the elements from `k` on are high, or `g` is the
last one that is not, and the element at `k` takes its place. -/
inductive Raised (compare : E → E → ℤ) (pivot1 pivot2 : E) (isHigh : ℤ → Bool) (k less great : ℤ)
    (f : ℤ → E) : (ℤ → E) → ℤ → ℤ → Prop where
  | none : (∀ i, k ≤ i → i ≤ great → isHigh (compare (f i) pivot2) = true) →
      Raised compare pivot1 pivot2 isHigh k less great f f less (k - 1)
  | low {g : ℤ} : k < g → g ≤ great →
      (∀ i, g < i → i ≤ great → isHigh (compare (f i) pivot2) = true) →
      isHigh (compare (f g) pivot2) = false → compare (f g) pivot1 < 0 →
      Raised compare pivot1 pivot2 isHigh k less great f
        ((f ∘ Equiv.swap k less) ∘ Equiv.swap less g) (less + 1) (g - 1)
  | middle {g : ℤ} : k < g → g ≤ great →
      (∀ i, g < i → i ≤ great → isHigh (compare (f i) pivot2) = true) →
      isHigh (compare (f g) pivot2) = false → ¬ compare (f g) pivot1 < 0 →
      Raised compare pivot1 pivot2 isHigh k less great f (f ∘ Equiv.swap k g) less (g - 1)

theorem upper_spec (ha : Cells s.a n f) (hl : 0 ≤ s.less) (hlk : s.less ≤ k)
    (hh : isHigh (compare (f k) pivot2) = true) (hk : k ≤ s.great) (hg : s.great < n)
    (hfl : s.great - k < fuel)
    (ht : ∀ i, s.great < i → i ≤ top → isHigh (compare (f i) pivot2) = true)
    (hle : s.great ≤ top) :
    Succeeds (upper compare pivot1 pivot2 isHigh k (f k) fuel s) (fun s' => ∃ f',
      Cells s'.a n f' ∧
        Raised compare pivot1 pivot2 isHigh k s.less top f f' s'.less s'.great) := by
  induction fuel generalizing s with
  | zero => omega
  | succ fuel ih =>
    rw [upper]
    refine get_bind ha (by omega) ?_
    refine .ite (fun hag => ?_) fun hag => ?_
    · have ht' := forall_below ht hag
      refine .ite (fun hst => ?_) fun hst => ?_
      · refine .pure ⟨f, ha, ?_⟩
        rw [show s.great - 1 = k - 1 by omega]
        apply Raised.none
        intro i hi hit
        exact ht' i (by omega) hit
      · exact ih ha hl hlk (by show k ≤ s.great - 1; omega)
          (by show s.great - 1 < (n : ℤ); omega) (by show s.great - 1 - k < (fuel : ℤ); omega)
          ht' (by show s.great - 1 ≤ top; omega)
    · rw [Bool.not_eq_true] at hag
      have hkg : k < s.great := by
        apply lt_of_le_of_ne hk
        intro heq
        rw [← heq, hh] at hag
        cases hag
      refine .ite (fun hlw => ?_) fun hlw => ?_
      · apply (tripleExchange_succeeds ha (by omega)).imp
        rintro _ ⟨a', rfl, ha'⟩
        exact ⟨_, ha', .low hkg hle ht hag hlw⟩
      · apply (exchange_succeeds ha (by omega)).imp
        rintro _ ⟨a', rfl, ha'⟩
        exact ⟨_, ha', .middle hkg hle ht hag hlw⟩

/-- The partition of the cells from `lo` to `hi` before `k`. -/
abbrev Partitioned (compare : E → E → ℤ) (pivot1 pivot2 : E) (isLow isHigh : ℤ → Bool)
    (lo hi : ℤ) (f₀ : ℤ → E) (k less great : ℤ) (f : ℤ → E) : Prop :=
  Parts (fun x => isLow (compare x pivot1) = true)
    (fun x => ¬ compare x pivot1 < 0 ∧ isHigh (compare x pivot2) = false)
    (fun x => isHigh (compare x pivot2) = true) lo hi f₀ k less great f

theorem Partitioned.raise
    (h : Partitioned compare pivot1 pivot2 isLow isHigh lo hi f₀ k less great f)
    (hlw : ∀ i, lo ≤ i → i ≤ hi → compare (f i) pivot1 < 0 → isLow (compare (f i) pivot1) = true)
    (hk : k ≤ great) (hkh : isHigh (compare (f k) pivot2) = true)
    (hr : Raised compare pivot1 pivot2 isHigh k less hi f f' less' gt') : Partitioned compare pivot1
    pivot2 isLow isHigh lo hi f₀ (k + 1) less' gt' f' := by
  have hlo := h.lo_le
  have hl := h.less_le
  cases hr with
  | none hal => exact h.all_high hk hal
  | @low g hkg hg hal hnt hn =>
    exact h.rotate hk hg hal hkh hkg (hlw g (by omega) hg hn)
  | middle hkg hg hal hnt hn => exact h.exchange hk hg hal hkh (.inl hkg) ⟨hn, hnt⟩

/-- **The partition by two pivots**. -/
theorem partitionLoop_spec (hlo : 0 ≤ lo) (hhi : hi < n)
    (hlw : ∀ i, lo ≤ i → i ≤ hi → compare (f₀ i) pivot1 < 0 → isLow (compare (f₀ i) pivot1) = true)
    (ha : Cells s.a n f)
    (h : Partitioned compare pivot1 pivot2 isLow isHigh lo hi f₀ k s.less s.great f)
    (hfl : hi - k + 1 < fuel) (hp : 0 < fuel) :
    Succeeds (partitionLoop compare pivot1 pivot2 isLow isHigh fuel s k) (fun s' => ∃ f' k',
      Cells s'.a n f' ∧ s'.great < k' ∧
        Partitioned compare pivot1 pivot2 isLow isHigh lo hi f₀ k' s'.less s'.great f') := by
  induction fuel generalizing s k f with
  | zero => omega
  | succ fuel ih =>
    have hlo' := h.lo_le
    have hls := h.less_le
    have hg := h.great_le
    have hln := ha.length_eq
    have hlw' : ∀ i, lo ≤ i → i ≤ hi → compare (f i) pivot1 < 0 →
        isLow (compare (f i) pivot1) = true := by
      intro i hl hr
      exact h.rearranges.forall
        (P := fun x => compare x pivot1 < 0 → isLow (compare x pivot1) = true) hlw hl hr
    rw [partitionLoop]
    refine .ite (fun hk => ?_) fun hk => ?_
    · refine get_bind ha (by omega) ?_
      refine .ite (fun hkl => ?_) fun hkl => ?_
      · apply (lower_succeeds ha (by omega)).bind
        rintro _ ⟨a', rfl, ha'⟩
        exact ih ha' (h.lower hk hkl) (by omega) (by omega)
      refine .ite (fun hkh => ?_) fun hkh => ?_
      · apply (upper_spec ha (by omega) hls hkh hk (by omega) (by omega) h.high hg).bind
        rintro s' ⟨f', ha', hrs⟩
        exact ih ha' (h.raise hlw' hk hkh hrs) (by omega) (by omega)
      · rw [Bool.not_eq_true] at hkh
        have hng := mt (hlw' k (by omega) (by omega)) hkl
        exact ih ha (h.skip ⟨hng, hkh⟩) (by omega) (by omega)
    · exact .pure ⟨f, k, ha, by omega, h⟩

end

/-! ## The partition by one pivot -/

section

variable {pivot : E} {lo hi less great : ℤ} {f₀ : ℤ → E}

/-- The cells after the `while` loop: `g` is the last element that is not greater than the pivot,
and the element at `k` takes its place. -/
inductive RaisedEqual (compare : E → E → ℤ) (pivot : E) (k less : ℤ) (f : ℤ → E) (g : ℤ) :
    (ℤ → E) → ℤ → ℤ → Prop where
  | low : compare (f g) pivot < 0 →
      RaisedEqual compare pivot k less f g
        ((f ∘ Equiv.swap k less) ∘ Equiv.swap less g) (less + 1) (g - 1)
  | equal : compare (f g) pivot = 0 →
      RaisedEqual compare pivot k less f g (f ∘ Equiv.swap k g) less (g - 1)

theorem equalUpper_spec (ha : Cells s.a n f) (hl : 0 ≤ s.less) (hlk : s.less ≤ k)
    (hkn : k < n) (hw : 0 ≤ w) (hwg : w ≤ s.great) (hwl : ¬ compare (f w) pivot > 0)
    (hne : ¬ compare (f s.less) pivot < 0) (hgr : s.great < n) (hfl : s.great - w < fuel)
    (ht : ∀ i, s.great < i → i ≤ top → compare (f i) pivot > 0) (hle : s.great ≤ top) :
    Succeeds (equalUpper compare pivot k (f k) fuel s) (fun s' => ∃ f' g, Cells s'.a n f' ∧
      w ≤ g ∧ g ≤ top ∧ (∀ i, g < i → i ≤ top → compare (f i) pivot > 0) ∧
      RaisedEqual compare pivot k s.less f g f' s'.less s'.great) := by
  induction fuel generalizing s with
  | zero => omega
  | succ fuel ih =>
    rw [equalUpper]
    refine get_bind ha (by omega) ?_
    refine .ite (fun hag => ?_) fun hag => ?_
    · have hlt : w < s.great := by
        apply lt_of_le_of_ne hwg
        intro heq
        rw [heq] at hwl
        exact hwl hag
      have ht' := forall_below ht hag
      exact ih ha hl hlk
        (by show w ≤ s.great - 1; omega) hne (by show s.great - 1 < (n : ℤ); omega)
        (by show s.great - 1 - w < (fuel : ℤ); omega) ht' (by show s.great - 1 ≤ top; omega)
    · refine .ite (fun hlw => ?_) fun hlw => ?_
      · have hgl : s.great ≠ s.less := by
          intro heq
          rw [heq] at hlw
          exact hne hlw
        apply (tripleExchange_succeeds ha (by omega) (by omega) (by omega) hgl).imp
        rintro _ ⟨a', rfl, ha'⟩
        exact ⟨_, s.great, ha', hwg, hle, ht, .low hlw⟩
      · apply (exchange_succeeds ha (by omega)).imp
        rintro _ ⟨a', rfl, ha'⟩
        exact ⟨_, s.great, ha', hwg, hle, ht, .equal (by omega)⟩

/-- The partition of the cells from `lo` to `hi` before `k`, by one pivot. A last exchange may put
an element equal to the pivot behind `great`. -/
structure EqualPartitioned (compare : E → E → ℤ) (pivot : E) (lo hi : ℤ) (f₀ : ℤ → E)
    (k less great : ℤ) (f : ℤ → E) : Prop extends
    Parts (fun x => compare x pivot < 0) (fun x => compare x pivot = 0)
      (fun x => ¬ compare x pivot < 0) lo hi f₀ k less great f where
  greater : k ≤ great → ∀ i, great < i → i ≤ hi → compare (f i) pivot > 0

theorem EqualPartitioned.of_parts (h : Parts (fun x => compare x pivot < 0)
      (fun x => compare x pivot = 0) (fun x => compare x pivot > 0) lo hi f₀ k less great f) :
    EqualPartitioned compare pivot lo hi f₀ k less great f :=
  { h with
    high := fun i hi hih => (h.high i hi hih).not_gt
    greater := fun _ => h.high }

section
variable (h : EqualPartitioned compare pivot lo hi f₀ k less great f)
include h

theorem EqualPartitioned.parts (hk : k ≤ great) : Parts (fun x => compare x pivot < 0)
      (fun x => compare x pivot = 0) (fun x => compare x pivot > 0) lo hi f₀ k less great f :=
  { h with high := h.greater hk }

theorem EqualPartitioned.skip (he : compare (f k) pivot = 0) :
    EqualPartitioned compare pivot lo hi f₀ (k + 1) less great f :=
  { h.toParts.skip he with greater := fun hk => h.greater (by omega) }

theorem EqualPartitioned.lower (hk : k ≤ great) (hl : compare (f k) pivot < 0) :
    EqualPartitioned compare pivot lo hi f₀ (k + 1) (less + 1) great (f ∘ swap k less) :=
  .of_parts ((h.parts hk).lower hk hl)

/-- The `while` loop stops at an element equal to the pivot. -/
theorem EqualPartitioned.exists_equal
    (hp : ∃ i, lo ≤ i ∧ i ≤ hi ∧ compare (f₀ i) pivot = 0) (hk : k ≤ great) :
    ∃ w, less ≤ w ∧ k - 1 ≤ w ∧ w ≤ great ∧ compare (f w) pivot = 0 := by
  have hl := h.less_le
  by_cases hlk : less < k
  · exact ⟨k - 1, by omega, le_rfl, by omega, h.middle (k - 1) (by omega) (by omega) (by omega)⟩
  obtain ⟨i, hlo, hhi, hi⟩ := hp
  obtain ⟨w, hlw, hwh, hw⟩ := h.rearranges.target hlo hhi
  rw [← hw] at hi
  have hge : less ≤ w := by
    by_contra hlt
    have := h.low w hlw (by omega)
    omega
  have hle : w ≤ great := by
    by_contra hlt
    have := h.greater hk w (by omega) hwh
    omega
  exact ⟨w, hge, by omega, hle, hi⟩

theorem EqualPartitioned.raise (hk : k ≤ great) (hkh : compare (f k) pivot > 0) (hlg : less ≤ g)
    (hkg : k - 1 ≤ g) (hgh : g ≤ hi) (hal : ∀ i, g < i → i ≤ hi → compare (f i) pivot > 0)
    (hr : RaisedEqual compare pivot k less f g f' less' gt') : EqualPartitioned compare pivot lo hi
    f₀ (k + 1) less' gt' f' := by
  have hne (hle : compare (f g) pivot ≤ 0) : g ≠ k := by
    intro heq
    rw [heq] at hle
    omega
  cases hr with
  | low hn =>
    have hl : g ≠ k - 1 := by
      intro heq
      have := h.middle g hlg (by omega) (by omega)
      omega
    exact .of_parts ((h.parts hk).rotate hk hgh hal hkh (by omega) hn)
  | equal hz =>
    have hgk := hne hz.le
    by_cases hl : g = k - 1
    · have hp := h.toParts.exchange hk hgh (fun i hi hih => (hal i hi hih).not_gt)
        hkh.not_gt (.inr ⟨hl, hlg, by omega⟩) hz
      exact { hp with greater := by omega }
    · exact .of_parts ((h.parts hk).exchange hk hgh hal hkh (.inl (by omega)) hz)

end

/-- **The partition by one pivot**. -/
theorem equalLoop_spec (hlo : 0 ≤ lo) (hhi : hi < n)
    (hp : ∃ i, lo ≤ i ∧ i ≤ hi ∧ compare (f₀ i) pivot = 0) (ha : Cells s.a n f)
    (h : EqualPartitioned compare pivot lo hi f₀ k s.less s.great f)
    (hfl : hi - k + 1 < fuel) (hps : 0 < fuel) :
    Succeeds (equalLoop compare pivot fuel s k) (fun s' => ∃ f' k', Cells s'.a n f' ∧
      s'.great < k' ∧ EqualPartitioned compare pivot lo hi f₀ k' s'.less s'.great f') := by
  induction fuel generalizing s k f with
  | zero => omega
  | succ fuel ih =>
    have hlo' := h.lo_le
    have hl := h.less_le
    have hgr := h.great_le
    have hln := ha.length_eq
    rw [equalLoop]
    refine .ite (fun hk => ?_) fun hk => ?_
    · refine get_bind ha (by omega) ?_
      refine .ite (fun he => ?_) fun he => ?_
      · exact ih ha (h.skip he) (by omega) (by omega)
      refine .ite (fun hlw => ?_) fun hlw => ?_
      · apply (lower_succeeds ha (by omega)).bind
        rintro _ ⟨a', rfl, ha'⟩
        exact ih ha' (h.lower hk hlw) (by omega) (by omega)
      obtain ⟨w, hls, hkw, hwr, hw⟩ := h.exists_equal hp hk
      have hne : ¬ compare (f s.less) pivot < 0 := by
        by_cases heq : s.less = k
        · rw [heq]
          exact hlw
        · have := h.middle s.less le_rfl (by omega) (by omega)
          omega
      apply (equalUpper_spec ha (by omega) hl (by omega) (by omega) hwr
        (by omega) hne (by omega) (by omega) (h.greater hk) hgr).bind
      rintro s' ⟨f', g, ha', hwg, hgh, hal, hr⟩
      exact ih ha' (h.raise hk (by omega) (by omega) (by omega) hgh hal hr) (by omega)
        (by omega)
    · exact .pure ⟨f, k, ha, by omega, h⟩

end

end Internal.Sort
