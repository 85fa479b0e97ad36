import DartSdk.Aot.Proof.Intervals
import DartSdk.Lib.RowDisplacement

/-!
# Fitting rows

The free slots of a fitter are the indices that no row has taken, and the search for an offset tries
only offsets below which the row does not fit.

* `RowFitter.tryFit_spec`: a try takes the cells of a row, or says from which offset on the row
  might fit.
* `RowFitter.fitAll_spec`: a pass over the rows is a pass of row displacement, or runs out of table
  indices.
-/

namespace Aot

open Aot.Interval Fallible RowDisplacement List

namespace RowFitter

variable {slots pre rest post rs : List Interval} {slot rg I : Interval} {offset : Nat}

/-! ## Slots -/

theorem not_covers_gap {e q : Nat} (h : Separated (pre ++ slot :: post))
    (hp : ∀ I ∈ pre, I.end_ < e) (hq : q < slot.begin_) (he : q + 1 = slot.begin_ ∨ e ≤ q + 1) :
    ¬ Covers (pre ++ slot :: post) q := by
  intro hc
  rw [covers_append, covers_cons] at hc
  rcases hc with ⟨I, hI, hIq⟩ | hs | ⟨I, hI, hIq⟩
  · have h1 := h.between I hI slot mem_cons_self
    have h2 := hp I hI
    omega
  · have := hs.1
    omega
  · have h1 := h.right.between slot (mem_singleton_self _) I hI
    have h2 := h.nonempty slot (by simp)
    omega

/-- A slot was found: the first one that ends late enough. -/
structure Found (slots : List Interval) (e : Nat) (pre : List Interval) (slot : Interval)
    (post : List Interval) : Prop where
  split : slots = pre ++ slot :: post
  before : ∀ I ∈ pre, I.end_ < e
  reaches : e ≤ slot.end_

theorem slotAt_append : slotAt (pre ++ slot :: post) pre.length = .ok slot := by
  simp [slotAt]

/-- **The slot for a range**, from an index with no slot before it that ends late enough. -/
theorem moveForwardToCover_spec (hp : ∀ I ∈ pre, I.end_ < rg.end_) :
    Ends (moveForwardToCover (pre ++ rest) rg pre.length)
      (fun i => ∃ skip slot post, Found (pre ++ rest) rg.end_ (pre ++ skip) slot post ∧
        i = (pre ++ skip).length)
      fun e => e = .outOfBounds ∧ ∀ I ∈ pre ++ rest, I.end_ < rg.end_ := by
  have hfl : rest.length < (pre ++ rest).length + 1 := by
    rw [length_append]
    omega
  rw [moveForwardToCover]
  generalize (pre ++ rest).length + 1 = fuel at hfl ⊢
  induction rest generalizing pre fuel with
  | nil =>
    obtain _ | fuel := fuel
    · omega
    have h : moveForwardLoop (pre ++ []) rg (fuel + 1) pre.length = .error .outOfBounds := by
      simp [moveForwardLoop, slotAt]
      rfl
    rw [h]
    exact ⟨rfl, by simpa using hp⟩
  | cons slot rest ih =>
    obtain _ | fuel := fuel
    · omega
    rw [moveForwardLoop, slotAt_append]
    change Ends (if slot.end_ < rg.end_ then _ else _) _ _
    split_ifs with hen
    · have h := @ih (pre ++ [slot]) (by
        simp only [mem_append, mem_singleton]
        rintro I (hI | rfl)
        · exact hp I hI
        · exact hen) fuel (by simp at hfl; omega)
      simp only [append_assoc, cons_append, nil_append, length_append,
        length_cons, length_nil, Nat.zero_add] at h
      refine h.imp fun i hi => ?_
      obtain ⟨skip, slot', post, hf, hi⟩ := hi
      exact ⟨slot :: skip, slot', post, hf, by simpa using hi⟩
    · exact ⟨[], slot, rest, ⟨by simp, by simpa using hp, by omega⟩, by simp⟩

/-! ## Taking a range -/

/-- What remains of a slot. -/
def carve (slot rg : Interval) : List Interval :=
  (if slot.begin_ < rg.begin_ then [⟨slot.begin_, rg.begin_⟩] else []) ++
    if rg.end_ < slot.end_ then [⟨rg.end_, slot.end_⟩] else []

theorem mem_carve (h : I ∈ carve slot rg) (hb : slot.begin_ ≤ rg.begin_)
    (he : rg.end_ ≤ slot.end_) (hne : rg.Nonempty) :
    I.Nonempty ∧ slot.begin_ ≤ I.begin_ ∧ I.end_ ≤ slot.end_ := by
  simp only [Interval.Nonempty] at hne ⊢
  simp only [carve, mem_append] at h
  rcases h with h | h <;> split at h <;> simp only [mem_singleton, not_mem_nil] at h
  · subst h
    simp only
    omega
  · subst h
    simp only
    omega

section
variable (hb : slot.begin_ ≤ rg.begin_) (he : rg.end_ ≤ slot.end_) (hne : rg.Nonempty)
include hb he hne

theorem separated_carve : Separated (carve slot rg) := by
  refine ⟨fun I hI => (mem_carve hI hb he hne).1, ?_⟩
  simp only [carve]
  split_ifs <;> simp
  exact hne

theorem covers_carve {x : Nat} : Covers (carve slot rg) x ↔ slot.Has x ∧ ¬ rg.Has x := by
  simp only [carve, covers_append]
  split_ifs <;> simp only [covers_cons, covers_nil, Has, or_false, false_or, false_iff] <;> omega

end

section
variable (h : Separated (pre ++ slot :: post)) (hb : slot.begin_ ≤ rg.begin_)
  (he : rg.end_ ≤ slot.end_) (hne : rg.Nonempty)
include h hb he hne

theorem separated_carve_append : Separated (pre ++ (carve slot rg ++ post)) := by
  have hp := h.right.between slot (mem_singleton_self _)
  refine h.left.append ((separated_carve hb he hne).append (h.right.right (l := [slot])) ?_) ?_
  · intro I hI J hJ
    have := (mem_carve hI hb he hne).2.2
    have := hp J hJ
    omega
  · intro I hI J hJ
    rcases mem_append.1 hJ with hJ | hJ
    · have := (mem_carve hJ hb he hne).2.1
      have := h.between I hI slot mem_cons_self
      omega
    · exact h.between I hI J (.tail _ hJ)

/-- A range that lies in one slot is covered by no other. -/
theorem covers_carve_iff {y : Nat} : Covers (pre ++ (carve slot rg ++ post)) y ↔
      Covers (pre ++ slot :: post) y ∧ ¬ rg.Has y := by
  have hpr : Covers pre y → ¬ rg.Has y := by
    rintro ⟨I, hI, hIy⟩ hy
    have h1 := h.between I hI slot mem_cons_self
    omega
  have hp : Covers post y → ¬ rg.Has y := by
    rintro ⟨I, hI, hIy⟩ hy
    have h1 := h.right.between slot (mem_singleton_self _) I hI
    omega
  rw [covers_append, covers_append, covers_carve hb he hne, covers_append, covers_cons]
  grind

end

theorem insertIdx_append_length :
    (pre ++ slot :: post).insertIdx (pre.length + 1) I = pre ++ slot :: I :: post := by
  induction pre with
  | nil => rfl
  | cons J pre ih =>
    rw [cons_append, length_cons, insertIdx_succ_cons, ih]
    rfl

theorem eraseIdx_append_length : (pre ++ slot :: post).eraseIdx pre.length = pre ++ post := by
  rw [eraseIdx_append_of_length_le le_rfl, Nat.sub_self]
  rfl

theorem set_append_length : (pre ++ slot :: post).set pre.length I = pre ++ I :: post := by
  simp

/-- **Taking a range** out of its slot. The slots from the old index up to the one that is returned
end before the range. -/
theorem fitInFreeSlot_spec :
    ∃ more rest, fitInFreeSlot (pre ++ slot :: post) rg pre.length =
        .ok (pre ++ (more ++ rest), (pre ++ more).length) ∧
      more ++ rest = carve slot rg ++ post ∧ ∀ I ∈ more, I.end_ = rg.begin_ := by
  have hd : fitInFreeSlot (pre ++ slot :: post) rg pre.length =
      if slot.begin_ < rg.begin_ then
        if slot.end_ > rg.end_ then
          .ok (pre ++ ⟨slot.begin_, rg.begin_⟩ :: ⟨rg.end_, slot.end_⟩ :: post, pre.length)
        else .ok (pre ++ ⟨slot.begin_, rg.begin_⟩ :: post, pre.length + 1)
      else if slot.end_ ≤ rg.end_ then .ok (pre ++ post, pre.length)
      else .ok (pre ++ ⟨rg.end_, slot.end_⟩ :: post, pre.length) := by
    simp only [fitInFreeSlot, slotAt_append, set_append_length, insertIdx_append_length,
      eraseIdx_append_length]
    rfl
  rw [hd]
  simp only [carve]
  by_cases h1 : slot.begin_ < rg.begin_
  · rw [if_pos h1, if_pos h1]
    by_cases h2 : rg.end_ < slot.end_
    · rw [if_pos h2, if_pos h2]
      exact ⟨[], _, by simp, rfl, by simp⟩
    · rw [if_neg h2, if_neg h2]
      exact ⟨[⟨slot.begin_, rg.begin_⟩], post, by simp, rfl, by simp⟩
  · rw [if_neg h1, if_neg h1]
    by_cases h2 : rg.end_ < slot.end_
    · rw [if_neg (by omega), if_pos h2]
      exact ⟨[], _, by simp, rfl, by simp⟩
    · rw [if_pos (by omega), if_neg h2]
      exact ⟨[], post, by simp, rfl, by simp⟩

/-! ## The state of a fitter -/

/-- The free slots are what is not taken. -/
structure Inv (fitter : RowFitter) (occ : Set ℕ) : Prop where
  separated : Separated fitter.freeSlots
  covers : ∀ x, Covers fitter.freeSlots x ↔ x < intMax ∧ x ∉ occ
  index : fitter.firstSlotIndex ≤ fitter.freeSlots.length

theorem inv_empty : Inv empty ∅ := by
  refine ⟨separated_singleton (by simp [Interval.Nonempty, intMax]), fun x => ?_, by simp [empty]⟩
  simp [empty, Covers, Has]

/-- The cells of a row at an offset. -/
def cellsAt (rs : List Interval) (offset : Nat) : Set ℕ :=
  {y | ∃ x, Covers rs x ∧ offset + x = y}

theorem has_withOffset_iff {y : Nat} :
    (rg.withOffset offset).Has y ↔ ∃ x, rg.Has x ∧ offset + x = y := by
  constructor
  · intro h
    have h1 := h.1
    simp only [withOffset] at h1
    have hy : offset + (y - offset) = y := by omega
    exact ⟨y - offset, has_withOffset.1 (hy ▸ h), hy⟩
  · rintro ⟨x, hx, rfl⟩
    exact has_withOffset.2 hx

theorem mem_cellsAt_cons {y : Nat} :
    y ∈ cellsAt (rg :: rs) offset ↔ (rg.withOffset offset).Has y ∨ y ∈ cellsAt rs offset := by
  simp only [cellsAt, Set.mem_ofPred_eq, covers_cons, has_withOffset_iff, or_and_right, exists_or]

/-- **Taking the cells of a row that fits.** -/
theorem updateFreeSlots_spec (hsl : Separated (pre ++ rest)) (hr : Separated rs)
    (hp : ∀ R ∈ rs, ∀ I ∈ pre, I.end_ < R.end_ + offset)
    (hft : ∀ y ∈ cellsAt rs offset, Covers (pre ++ rest) y) :
    Succeeds (updateFreeSlots offset rs (pre ++ rest) pre.length) fun slots =>
      Separated slots ∧ pre.length ≤ slots.length ∧
        ∀ y, Covers slots y ↔ Covers (pre ++ rest) y ∧ y ∉ cellsAt rs offset := by
  induction rs generalizing pre rest with
  | nil =>
    refine ⟨_, rfl, hsl, by simp, fun y => ?_⟩
    simp [cellsAt, covers_nil]
  | cons rg rs ih =>
    have hne : (rg.withOffset offset).Nonempty := by
      have := hr.nonempty rg mem_cons_self
      simp only [Interval.Nonempty, withOffset] at this ⊢
      omega
    have hR : ∀ y, (rg.withOffset offset).Has y → Covers (pre ++ rest) y :=
      fun y hy => hft y (mem_cellsAt_cons.2 (.inl hy))
    have hfn := @moveForwardToCover_spec pre rest (rg.withOffset offset) (hp rg mem_cons_self)
    -- The last cell is covered, so some slot ends late enough.
    obtain ⟨i, hi, skip, slot, post, hf, rfl⟩ := hfn.succeeds (by
      rintro e ⟨-, ha⟩
      obtain ⟨I, hI, hIx⟩ := hR ((rg.withOffset offset).end_ - 1)
        ⟨Nat.le_sub_one_of_lt hne, Nat.sub_one_lt_of_lt hne⟩
      have := ha I hI
      omega)
    have hbg : slot.begin_ ≤ (rg.withOffset offset).begin_ := by
      by_contra hlt
      refine not_covers_gap (q := min slot.begin_ (rg.withOffset offset).end_ - 1)
        (hf.split ▸ hsl) hf.before (by omega) (by omega) ?_
      rw [← hf.split]
      exact hR _ ⟨by omega, by omega⟩
    obtain ⟨more, rest', hfi, hm, hen⟩ :=
      @fitInFreeSlot_spec (pre ++ skip) post slot (rg.withOffset offset)
    have hcr : Separated (pre ++ skip ++ (more ++ rest')) := by
      rw [hm]
      exact separated_carve_append (hf.split ▸ hsl) hbg hf.reaches hne
    have hcv : ∀ y, Covers (pre ++ skip ++ (more ++ rest')) y ↔
        Covers (pre ++ rest) y ∧ ¬ (rg.withOffset offset).Has y := by
      intro y
      rw [hm, covers_carve_iff (hf.split ▸ hsl) hbg hf.reaches hne, ← hf.split]
    have hp' : ∀ R ∈ rs, ∀ I ∈ pre ++ skip ++ more, I.end_ < R.end_ + offset := by
      intro R hR I hI
      have hlt := hr.end_lt hR
      rcases mem_append.1 hI with hI | hI
      · have := hf.before I hI
        simp only [withOffset] at this
        omega
      · have := hen I hI
        simp only [withOffset, Interval.Nonempty] at this hne
        omega
    rw [← append_assoc] at hcr hcv
    obtain ⟨slots, hsl', hsp, hln, hc⟩ := ih hcr (hr.right (l := [rg])) hp' (by
      intro y hy
      refine (hcv y).2 ⟨hft y (mem_cellsAt_cons.2 (.inr hy)), fun hRy => ?_⟩
      obtain ⟨x, ⟨J, hJ, hJx⟩, rfl⟩ := hy
      have h1 := (pairwise_cons.1 hr.gap).1 J hJ
      have h3 := (has_withOffset.1 hRy).2
      omega)
    refine ⟨slots, ?_, hsp, ?_, fun y => ?_⟩
    · rw [updateFreeSlots, hi, ok_bind, hf.split, hfi, ← append_assoc]
      exact hsl'
    · simp only [length_append] at hln
      omega
    · rw [hc, hcv, mem_cellsAt_cons, not_or, and_assoc]

/-! ## A try -/

/-- What a try of the ranges says: they are free, or no offset below the next one is. -/
def Tried (slots rs : List Interval) (offset : Nat) : Option Nat → Prop
  | none => ∀ y ∈ cellsAt rs offset, Covers slots y
  | some next => offset < next ∧ ∃ z, Covers slots z ∧ next ≤ z ∧ ∀ o, offset ≤ o → o < next →
      ∃ x, Covers rs x ∧ o + x < z ∧ ¬ Covers slots (o + x)

/-- **The next offset.** Below it, the range that does not fit has a cell in the gap before the slot
that was found. -/
theorem tryRanges_spec (hsl : Separated (pre ++ rest)) (hrn : Separated rs)
    (hp : ∀ R ∈ rs, ∀ I ∈ pre, I.end_ < R.end_ + offset) :
    Ends (tryRanges (pre ++ rest) offset rs pre.length) (Tried (pre ++ rest) rs offset)
      fun e => e = .outOfBounds ∧ ∃ R ∈ rs, ∀ I ∈ pre ++ rest, I.end_ < R.end_ + offset := by
  induction rs generalizing pre rest with
  | nil =>
    intro y hy
    obtain ⟨x, hx, -⟩ := hy
    exact absurd hx covers_nil
  | cons rg rs ih =>
    have hne := hrn.nonempty rg mem_cons_self
    rw [tryRanges]
    refine Ends.bind (P := fun i => ∃ skip slot post,
      Found (pre ++ rest) (rg.withOffset offset).end_ (pre ++ skip) slot post ∧
        i = (pre ++ skip).length) ?_ ?_
    · refine (moveForwardToCover_spec (hp rg mem_cons_self)).imp_error ?_
      intro e he
      exact ⟨he.1, rg, .head _, he.2⟩
    intro i hi
    obtain ⟨skip, slot, post, hf, rfl⟩ := hi
    have hsp := hf.split
    rw [hsp] at hsl ⊢
    rw [slotAt_append]
    change Ends (if slot.begin_ > (rg.withOffset offset).begin_ then _ else _) _ _
    have hbf := hf.before
    have hrc := hf.reaches
    simp only [withOffset] at hbf hrc
    split_ifs with hbg
    · simp only [withOffset] at hbg
      refine ⟨?_, slot.begin_, ⟨slot, by simp, ?_⟩, ?_, fun o ho hlt => ?_⟩
      · simp only [withOffset]
        omega
      · exact (hsl.nonempty slot (by simp)).has_begin
      · simp only [withOffset]
        omega
      simp only [withOffset] at hlt
      refine ⟨min slot.begin_ (rg.end_ + o) - 1 - o, ?_, by omega, ?_⟩
      · exact covers_cons.2 (.inl ⟨by omega, by omega⟩)
      · exact not_covers_gap hsl hbf (by omega) (by omega)
    · have hih := ih hsl (hrn.right (l := [rg])) (by
        intro R hR I hI
        have := hbf I hI
        have := hrn.end_lt hR
        omega)
      refine (hih.imp fun r hr => ?_).imp_error fun e he => ?_
      · cases r with
        | none =>
          intro y hy
          rcases mem_cellsAt_cons.1 hy with hy | hy
          · refine ⟨slot, by simp, ?_, ?_⟩
            · exact (Nat.le_of_not_lt hbg).trans hy.1
            · exact Nat.lt_of_lt_of_le hy.2 hrc
          · exact hr y hy
        | some next =>
          obtain ⟨hlt, z, hz, hn, hno⟩ := hr
          refine ⟨hlt, z, hz, hn, fun o h1 h2 => ?_⟩
          obtain ⟨x, hx, hxz, hc⟩ := hno o h1 h2
          exact ⟨x, covers_cons.2 (.inr hx), hxz, hc⟩
      · obtain ⟨he, R, hR, ha⟩ := he
        exact ⟨he, R, .tail _ hR, ha⟩

variable {occ : Set ℕ} {fitter : RowFitter} {o N lo hi : Nat} {Code : Type} {cells : Nat → Set ℕ}
  {P P' : Nat → Option Nat}

/-- **Where a try begins.** No slot before ends late enough for the first range. -/
theorem startIndex_spec (h : Inv fitter occ) :
    Succeeds (fitter.startIndex rg) fun i => ∃ pre rest, fitter.freeSlots = pre ++ rest ∧
      i = pre.length ∧ ∀ I ∈ pre, I.end_ < rg.end_ := by
  rw [startIndex]
  split_ifs with hp
  · have hlt : fitter.firstSlotIndex - 1 < fitter.freeSlots.length := by
      have := h.index
      omega
    have hsl : slotAt fitter.freeSlots (fitter.firstSlotIndex - 1) =
        .ok fitter.freeSlots[fitter.firstSlotIndex - 1] := by
      simp [slotAt, hlt]
    rw [hsl]
    refine ⟨_, rfl, ?_⟩
    split_ifs with hen
    · exact ⟨[], fitter.freeSlots, rfl, rfl, by simp⟩
    refine ⟨fitter.freeSlots.take fitter.firstSlotIndex, _, (take_append_drop ..).symm,
      (length_take_of_le h.index).symm, fun I hI => ?_⟩
    obtain ⟨k, hk, rfl⟩ := mem_take_iff_getElem.1 hI
    by_cases hl : k = fitter.firstSlotIndex - 1
    · subst hl
      omega
    have h1 := pairwise_iff_getElem.1 h.separated.gap k (fitter.firstSlotIndex - 1)
      (by omega) hlt (by omega)
    have h2 := h.separated.nonempty _ (getElem_mem hlt)
    omega
  · exact ⟨_, rfl, [], fitter.freeSlots, rfl, by simpa using hp, by simp⟩

/-- The table has no index for some cell of a row, or its last index is taken. -/
def Overflow (occ : Set ℕ) (rs : List Interval) (offset : Nat) : Prop :=
  intMax - 1 ∈ occ ∨ ∃ x, Covers rs x ∧ intMax ≤ offset + x

theorem Inv.overflow (h : Inv fitter occ) (hr : Separated rs)
    (hR : rg ∈ rs) (ha : ∀ I ∈ fitter.freeSlots, I.end_ < rg.end_ + offset) :
    Overflow occ rs offset := by
  by_cases ho : intMax - 1 ∈ occ
  · exact .inl ho
  obtain ⟨I, hI, hIx⟩ := (h.covers (intMax - 1)).2 ⟨by simp [intMax], ho⟩
  have h1 := ha I hI
  have h3 := hr.nonempty rg hR
  exact .inr ⟨rg.end_ - 1, ⟨rg, hR, ⟨by omega, by omega⟩⟩, by omega⟩

/-- The outcome of a try: the cells are taken, or the row fits at no offset below the next one. -/
def TryFit (occ : Set ℕ) (rs : List Interval) (offset : Nat) :
    RowFitter × Option Nat → Prop
  | (fitter, none) => (∀ y ∈ cellsAt rs offset, y ∉ occ) ∧
      Inv fitter (occ ∪ cellsAt rs offset)
  | (fitter, some next) => offset < next ∧ next ≤ intMax ∧ Inv fitter occ ∧
      ∀ o, offset ≤ o → o < next → ∃ x, Covers rs x ∧ o + x ∈ occ

/-- **A try.** -/
theorem tryFit_spec (h : Inv fitter occ) (hrn : Separated rs) (hne : rs ≠ []) :
    Ends (fitter.tryFit rs offset) (TryFit occ rs offset)
      fun e => e = .outOfBounds ∧ Overflow occ rs offset := by
  obtain ⟨rg, ranges', rfl⟩ := exists_cons_of_ne_nil hne
  have hfr : ∀ {e : Nat}, e < rg.end_ + offset → ∀ R ∈ rg :: ranges', e < R.end_ + offset := by
    intro e he R hR
    rcases mem_cons.1 hR with rfl | hR
    · exact he
    · have := hrn.end_lt hR
      omega
  obtain ⟨i, hi, pre, rest, hsp, rfl, hp⟩ := @startIndex_spec (rg.withOffset offset) occ fitter h
  rw [RowFitter.tryFit, show slotAt (rg :: ranges') 0 = .ok rg from rfl]
  simp only [ok_bind, hi]
  refine Ends.bind (P := fun i => ∃ skip slot post,
    Found fitter.freeSlots (rg.withOffset offset).end_ (pre ++ skip) slot post ∧
      i = (pre ++ skip).length) ?_ ?_
  · rw [hsp]
    refine (moveForwardToCover_spec hp).imp_error fun e he => ?_
    exact ⟨he.1, h.overflow hrn mem_cons_self (hsp ▸ he.2)⟩
  intro i hi
  obtain ⟨skip, slot, post, hf, rfl⟩ := hi
  have hbf : ∀ R ∈ rg :: ranges', ∀ I ∈ pre ++ skip, I.end_ < R.end_ + offset :=
    fun R hR I hI => hfr (hf.before I hI) R hR
  have hse := hf.split ▸ h.separated
  have ht := tryRanges_spec hse hrn hbf
  rw [← hf.split] at ht
  refine Ends.bind (ht.imp_error ?_) ?_
  · intro e he
    obtain ⟨he, R, hR, ha⟩ := he
    exact ⟨he, h.overflow hrn hR ha⟩
  intro r hr
  cases r with
  | some next =>
    obtain ⟨hlt, z, hz, hn, hno⟩ := hr
    have hzl := ((h.covers z).1 hz).1
    refine ⟨hlt, by omega, ⟨h.separated, h.covers, ?_⟩, fun o h1 h2 => ?_⟩
    · change (pre ++ skip).length ≤ fitter.freeSlots.length
      rw [hf.split]
      simp
    obtain ⟨x, hx, hxz, hc⟩ := hno o h1 h2
    rw [h.covers] at hc
    refine ⟨x, hx, ?_⟩
    by_contra hoc
    exact hc ⟨by omega, hoc⟩
  | none =>
    have hft := hr
    rw [hf.split] at hft
    obtain ⟨slots, hsl, hse', hl, hc⟩ := updateFreeSlots_spec hse hrn hbf hft
    simp only [hf.split, hsl, ok_bind]
    refine ⟨fun y hy => ?_, hse', fun x => ?_, hl⟩
    · have := hft y hy
      rw [← hf.split, h.covers] at this
      exact this.2
    · change Covers slots x ↔ _
      rw [hc, ← hf.split, h.covers, Set.mem_union, not_or, and_assoc]

/-! ## The search -/

/-- No offset from `lo` up to `o` is fit. -/
def NoFit (occ : Set ℕ) (rs : List Interval) (lo o : Nat) : Prop :=
  ∀ o', lo ≤ o' → o' < o → ∃ x, Covers rs x ∧ o' + x ∈ occ

/-- The outcome of the search: the smallest offset that is fit, or none up to the last. -/
def Searched (occ : Set ℕ) (rs : List Interval) (lo hi : Nat) :
    RowFitter × Option Nat → Prop
  | (fitter, some o) => lo ≤ o ∧ o ≤ hi ∧ (∀ y ∈ cellsAt rs o, y ∉ occ) ∧
      NoFit occ rs lo o ∧ Inv fitter (occ ∪ cellsAt rs o)
  | (fitter, none) => NoFit occ rs lo (hi + 1) ∧ Inv fitter occ ∧ (lo ≤ intMax → hi < intMax)

theorem NoFit.trans {lo hi : Nat} (h : NoFit occ rs lo o) (h' : NoFit occ rs o hi) :
    NoFit occ rs lo hi := by
  intro o' h1 h2
  rcases Nat.lt_or_ge o' o with hlt | hge
  · exact h o' h1 hlt
  · exact h' o' hge h2

/-- **The search for an offset.** -/
theorem fitLoop_spec {lo hi fuel : Nat} (h : Inv fitter occ)
    (hrn : Separated rs) (hne : rs ≠ []) (hf : hi + 2 ≤ fuel + lo) (hp : 0 < fuel) :
    Ends (fitLoop rs hi fuel fitter lo) (Searched occ rs lo hi)
      fun e => e = .outOfBounds ∧ ∃ o, lo ≤ o ∧ NoFit occ rs lo o ∧ Overflow occ rs o := by
  induction fuel generalizing fitter lo with
  | zero => omega
  | succ fuel ih =>
    rw [fitLoop]
    split_ifs with hle
    · refine Ends.bind ((tryFit_spec h hrn hne).imp_error ?_) ?_
      · intro e he
        exact ⟨he.1, lo, le_rfl, fun o' h1 h2 => by omega, he.2⟩
      intro r hr
      obtain ⟨fitter', next⟩ := r
      cases next with
      | none => exact ⟨le_rfl, hle, hr.1, fun o' h1 h2 => by omega, hr.2⟩
      | some next =>
        obtain ⟨hlt, hm, hin, hno⟩ := hr
        refine ((ih hin (by omega) (by omega)).imp fun r hr => ?_).imp_error fun e he => ?_
        · obtain ⟨fitter'', o⟩ := r
          cases o with
          | some o =>
            obtain ⟨h1, h2, h3, h4, h5⟩ := hr
            exact ⟨by omega, h2, h3, NoFit.trans hno h4, h5⟩
          | none =>
            obtain ⟨h1, h2, h3⟩ := hr
            exact ⟨NoFit.trans hno h1, h2, fun _ => h3 hm⟩
        · obtain ⟨he, o, h1, h2, h3⟩ := he
          exact ⟨he, o, by omega, NoFit.trans hno h2, h3⟩
    · exact ⟨fun o' h1 h2 => by omega, h, fun _ => by omega⟩

/-! ## Passes -/

/-- A row that stands for a set of cells below `N`. -/
structure Placeable (cells : Nat → Set ℕ) (N : Nat) (row : SelectorRow Code) : Prop where
  separated : Separated row.ranges
  ne_nil : row.ranges ≠ []
  mem_cells : ∀ x, x ∈ cells row.selector ↔ Covers row.ranges x
  bound : ∀ x ∈ cells row.selector, x < N

/-- There is room for `n` more rows with offsets from `lo` on. -/
def Room (occ : Set ℕ) (N lo n : Nat) : Prop :=
  ∃ B, (∀ x ∈ occ, x < B) ∧ max lo B + n * N < intMax

theorem NoFit.le {B : Nat} (h : NoFit occ rs lo o) (hB : ∀ x ∈ occ, x < B) : o ≤ max lo B := by
  by_contra hlt
  obtain ⟨x, -, hx⟩ := h (max lo B) (by omega) (by omega)
  have := hB _ hx
  omega

theorem Room.not_overflow (h : Room occ N lo 1) (hN : ∀ x, Covers rs x → x < N)
    (hno : NoFit occ rs lo o) : ¬ Overflow occ rs o := by
  obtain ⟨B, hB, hr⟩ := h
  have hle := hno.le hB
  rintro (hoc | ⟨x, hx, hm⟩)
  · have := hB _ hoc
    omega
  · have := hN x hx
    omega

theorem Room.take {n : Nat} (h : Room occ N lo (n + 1)) (hN : ∀ x, Covers rs x → x < N)
    (hno : NoFit occ rs lo o) : Room (occ ∪ cellsAt rs o) N lo n := by
  obtain ⟨B, hB, hr⟩ := h
  have hle := hno.le hB
  refine ⟨max lo B + N, fun x hx => ?_, ?_⟩
  · rcases hx with hx | ⟨c, hc, rfl⟩
    · have := hB x hx
      omega
    · have := hN c hc
      omega
  · rw [Nat.succ_mul] at hr
    omega

theorem Room.mono {m n : Nat} (h : Room occ N lo n) (hmn : m ≤ n) : Room occ N lo m := by
  obtain ⟨B, hB, hr⟩ := h
  have := Nat.mul_le_mul_right N hmn
  exact ⟨B, hB, by omega⟩

section

variable {row : SelectorRow Code}

theorem Placeable.cellsAt (h : Placeable cells N row) (o : Nat) :
    cellsAt row.ranges o = {y | ∃ c ∈ cells row.selector, o + c = y} := by
  ext y
  simp [RowFitter.cellsAt, h.mem_cells]

theorem Placeable.firstFit {r : Option Nat} {ft' : RowFitter} (h : Placeable cells N row)
    (hr : Searched (occupied cells P) row.ranges lo hi (ft', r)) :
    FirstFit cells lo hi P row.selector r := by
  have hn : ∀ {o lo hi}, NoFit (occupied cells P) row.ranges lo hi → lo ≤ o → o < hi →
      ¬ Fits cells P row.selector o := by
    intro o lo hi hno h1 h2 hf
    obtain ⟨x, hx, hoc⟩ := hno o h1 h2
    exact hf x ((h.mem_cells x).2 hx) hoc
  cases r with
  | none => exact fun o h1 h2 => hn hr.1 h1 (by omega)
  | some o =>
    obtain ⟨h1, h2, h3, h4, h5⟩ := hr
    refine ⟨⟨h1, h2, fun c hc => h3 _ ⟨c, (h.mem_cells c).1 hc, rfl⟩⟩, fun o' ho' => ?_⟩
    by_contra hlt
    exact hn h4 ho'.1 (by omega) ho'.2.2

/-- What a pass does with one row. -/
structure Allocated (cells : Nat → Set ℕ) (N lo hi : Nat) (P : Nat → Option Nat)
    (row : SelectorRow Code) (P' : Nat → Option Nat) (r : RowFitter × SelectorRow Code) : Prop where
  place : Place cells lo hi P row.selector P'
  inv : Inv r.1 (occupied cells P')
  result : r.2 = { row with offset := P' row.selector }
  room : ∀ n, Room (occupied cells P) N lo (n + 1) → Room (occupied cells P') N lo n
  all : hi = intMax → lo ≤ intMax → r.2.offset ≠ none

/-- **One row**: the smallest offset where it fits. -/
theorem fitAndAllocate_spec (h : Inv fitter (occupied cells P)) (hrw : Placeable cells N row)
    (hP : P row.selector = row.offset) :
    Ends (fitAndAllocate fitter row lo hi) (fun r => ∃ P', Allocated cells N lo hi P row P' r)
      fun e => e = .outOfBounds ∧ ¬ Room (occupied cells P) N lo 1 := by
  have hN : ∀ x, Covers row.ranges x → x < N := fun x hx => hrw.bound x ((hrw.mem_cells x).2 hx)
  cases hof : row.offset with
  | some o =>
    simp only [fitAndAllocate, hof]
    rw [hof] at hP
    refine ⟨P, .placed hP, h, ?_, fun n hrm => hrm.mono (Nat.le_succ n), fun _ _ => ?_⟩
    · rw [hP, ← hof]
    · rw [hof]
      simp
  | none =>
    simp only [fitAndAllocate, hof]
    rw [hof] at hP
    refine Ends.bind
      ((fitLoop_spec h hrw.separated hrw.ne_nil (by omega) (by omega)).imp_error ?_) ?_
    · rintro e ⟨he, o, -, hno, hov⟩
      exact ⟨he, fun hrm => hrm.not_overflow hN hno hov⟩
    intro r hr
    obtain ⟨fitter', o⟩ := r
    refine ⟨Function.update P row.selector o, .search hP (hrw.firstFit hr), ?_, ?_, ?_, ?_⟩
    · cases o with
      | none =>
        rw [update_none hP]
        exact hr.2.1
      | some o =>
        rw [occupied_update_some hP, ← hrw.cellsAt]
        exact hr.2.2.2.2
    · rw [Function.update_self]
    · intro n hrm
      cases o with
      | none =>
        rw [update_none hP]
        exact hrm.mono (Nat.le_succ n)
      | some o =>
        rw [occupied_update_some hP, ← hrw.cellsAt]
        exact hrm.take hN hr.2.2.2.1
    · rintro rfl hlo
      cases o with
      | none => exact absurd (hr.2.2 hlo) (Nat.lt_irrefl _)
      | some o => simp

end

/-- What a pass does with its rows. -/
structure AllAllocated (cells : Nat → Set ℕ) (N lo hi : Nat) (P : Nat → Option Nat)
    (rows : List (SelectorRow Code)) (P' : Nat → Option Nat)
    (r : RowFitter × List (SelectorRow Code)) : Prop where
  pass : Pass cells lo hi P (rows.map SelectorRow.selector) P'
  inv : Inv r.1 (occupied cells P')
  result : r.2 = rows.map fun row => { row with offset := P' row.selector }
  room : ∀ n, Room (occupied cells P) N lo (rows.length + n) → Room (occupied cells P') N lo n
  all : hi = intMax → lo ≤ intMax → ∀ row ∈ r.2, row.offset ≠ none

/-- **A pass over the rows** is a pass of row displacement. -/
theorem fitAll_spec {rows : List (SelectorRow Code)}
    (h : Inv fitter (occupied cells P)) (hrw : ∀ row ∈ rows, Placeable cells N row)
    (hP : ∀ row ∈ rows, P row.selector = row.offset)
    (hnd : (rows.map SelectorRow.selector).Nodup) :
    Ends (fitAll lo hi fitter rows) (fun r => ∃ P', AllAllocated cells N lo hi P rows P' r)
      fun e => e = .outOfBounds ∧ ¬ Room (occupied cells P) N lo rows.length := by
  induction rows generalizing fitter P with
  | nil => exact ⟨P, .nil, h, rfl, fun n hn => by simpa using hn, by simp⟩
  | cons row rows ih =>
    obtain ⟨hnt, hnd'⟩ := nodup_cons.1 hnd
    rw [fitAll]
    refine Ends.bind ((fitAndAllocate_spec h (hrw row mem_cons_self)
      (hP row mem_cons_self)).imp_error ?_) ?_
    · rintro e ⟨he, hrm⟩
      exact ⟨he, fun h => hrm (h.mono (by simp))⟩
    rintro ⟨fitter', row'⟩ ⟨P', hp, hin, hro', hrm, ha⟩
    have hP' : ∀ r ∈ rows, P' r.selector = r.offset := by
      intro r hr
      rw [hp.of_ne _, hP r (.tail _ hr)]
      intro heq
      exact hnt (mem_map.2 ⟨r, hr, heq⟩)
    refine Ends.bind ((ih hin (fun r hr => hrw r (.tail _ hr)) hP' hnd').imp_error ?_) ?_
    · rintro e ⟨he, hno⟩
      exact ⟨he, fun h => hno (hrm _ h)⟩
    rintro ⟨fitter'', rows'⟩ ⟨P'', hps, hin', hrw', hrm', ha'⟩
    have hsm := hps.of_not_mem hnt
    simp only at hro' hrw' ha ha'
    refine ⟨P'', .cons hp hps, hin', ?_, fun n hn => hrm' n (hrm _ ?_), ?_⟩
    · change row' :: rows' = _
      rw [hro', hrw', map_cons, hsm]
    · rwa [length_cons, Nat.add_right_comm] at hn
    intro h1 h2 r hr
    rcases mem_cons.1 hr with rfl | hr
    · exact ha h1 h2
    · exact ha' h1 h2 r hr

theorem tableSize_spec (h : Inv fitter occ) :
    Ends fitter.tableSize (fun size => intMax - 1 ∉ occ → ∀ x ∈ occ, x < intMax → x < size)
      fun e => e = .outOfBounds ∧ intMax - 1 ∈ occ := by
  have hl : intMax - 1 ∉ occ → Covers fitter.freeSlots (intMax - 1) :=
    fun ho => (h.covers _).2 ⟨by simp [intMax], ho⟩
  rw [tableSize]
  cases hg : fitter.freeSlots.getLast? with
  | none =>
    refine ⟨rfl, ?_⟩
    by_contra ho
    rw [getLast?_eq_none_iff] at hg
    exact covers_nil (hg ▸ hl ho)
  | some slot =>
    intro ho x hx hlt
    obtain ⟨init, hsp⟩ := getLast?_eq_some_iff.1 hg
    obtain ⟨I, hI, hIl⟩ := hl ho
    have hse := h.separated
    rw [hsp] at hse hI
    -- The slot with the last index is the last slot.
    have hsl : slot.Has (intMax - 1) := by
      rcases mem_append.1 hI with hI | hI
      · have h1 := hse.between I hI slot (mem_singleton_self _)
        have h2 := (h.covers slot.begin_).1 ⟨slot, by simp [hsp],
          (hse.nonempty slot (by simp)).has_begin⟩
        omega
      · obtain rfl := mem_singleton.1 hI
        exact hIl
    by_contra hge
    refine ((h.covers x).1 ⟨slot, by simp [hsp], ?_⟩).2 hx
    exact ⟨by omega, by omega⟩

end RowFitter

end Aot
