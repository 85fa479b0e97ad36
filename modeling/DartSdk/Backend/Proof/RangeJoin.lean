import DartSdk.Backend.Proof.RangeBits
import DartSdk.Backend.RangeJoin

/-!
# Joins of ranges

A join of two boundaries is right in a valuation unless a boundary that is beyond the size hides the
other one, which is the last value of the size. A join of two ranges is right unless one of them is
empty in the valuation and cuts off a value of the other one.

* `boundOn_near`, `boundOn_far`: what the clamped bounds of a boundary say about its value.
* `join_covers_iff`, `joinRanges_contains_iff`, `join_iff`: the joins.
* `join_empty`: they are not always right.
-/

namespace Backend.Proof

open Loops RangeBoundary FlowGraph Bool
open Option hiding join

/-! ## Sizes -/

section
variable {t : Target} {size : RangeSize} {side : Side} {b : RangeBoundary} {c k x : Int}

/-- The value is one of a size. -/
def InSize (t : Target) (size : RangeSize) (x : Int) : Prop :=
  limit t .lower size ≤ x ∧ x ≤ limit t .upper size

theorem limit_lt (t : Target) (size : RangeSize) : limit t .lower size < limit t .upper size := by
  cases size with
  | smi => exact (kSmiMin_neg t).trans_le (kSmiMax_nonneg t)
  | int16 | int32 | int64 => rw [limit, limit]; decide

theorem limit_le (t : Target) (size : RangeSize) : limit t .lower size ≤ limit t .upper size :=
  (limit_lt t size).le

theorem inSize_limit (t : Target) (side : Side) (size : RangeSize) :
    InSize t size (limit t side size) := by
  have := limit_le t size
  cases side with
  | lower => exact ⟨le_rfl, this⟩
  | upper => exact ⟨this, le_rfl⟩

theorem InSize.limit_bounds (hx : InSize t size x) (side : Side) :
    side.Bounds (limit t side size) x := by
  cases side with
  | lower => exact hx.1
  | upper => exact hx.2

theorem InSize.bounds_limit (hx : InSize t size x) :
    side.Bounds x (limit t side.opposite size) := by
  cases side with
  | lower => exact hx.2
  | upper => exact hx.1

/-- The nearest value of a size. -/
def saturateTo (t : Target) (size : RangeSize) (x : Int) : Int :=
  max (limit t .lower size) (min x (limit t .upper size))

theorem inSize_saturateTo (t : Target) (size : RangeSize) (x : Int) :
    InSize t size (saturateTo t size x) := by
  have := limit_le t size
  rw [InSize, saturateTo]
  omega

theorem saturateTo_mono (t : Target) (size : RangeSize) : Monotone (saturateTo t size) := by
  intro x y h
  rw [saturateTo, saturateTo]
  omega

theorem saturateTo_of_inSize (h : InSize t size x) : saturateTo t size x = x := by
  obtain ⟨h1, h2⟩ := h
  rw [saturateTo]
  omega

theorem clamp_constant (t : Target) (size : RangeSize) (c : Int) :
    (constant c).clamp t size = constant (saturateTo t size c) := by
  have := limit_le t size
  rw [clamp, saturateTo]
  split_ifs
  · congr 1; omega
  · congr 1; omega
  · congr 1; omega

theorem clamp_infinity (t : Target) (size : RangeSize) (side : Side) :
    (infinity side).clamp t size = constant (limit t side size) := by
  cases side <;> rfl

/-- A clamped bound still bounds the values of the size. -/
theorem clamp_near (hx : InSize t size x) (hb : IsBound side b k) (h : side.Bounds k x)
    (hc : (b.clamp t size).constantValue = some c) : side.Bounds c x := by
  rcases hb with rfl | ⟨c', rfl, hc'⟩
  · rw [clamp_infinity] at hc
    cases hc
    exact hx.limit_bounds side
  rw [clamp_constant] at hc
  cases hc
  have := (hc'.trans h).map (saturateTo_mono t size)
  rwa [saturateTo_of_inSize hx] at this

/-- The clamped far bound of a value that is the last one of the size, or beyond it. -/
theorem clamp_far_last (hb : IsBound side.opposite b k)
    (hc : (b.clamp t size).constantValue = some c)
    (h : side.Bounds (limit t side.opposite size) k) : c = limit t side.opposite size := by
  have hle := limit_le t size
  rcases hb with rfl | ⟨c', rfl, hc'⟩
  · rw [clamp_infinity] at hc
    exact (Option.some.inj hc).symm
  rw [clamp_constant] at hc
  cases hc
  cases side <;> simp only [Side.Bounds, Side.opposite] at * <;> rw [saturateTo] <;> omega

/-- A bound of a value of the size is the last value of the size if it is when it is clamped. -/
theorem clamp_near_last (hb : IsBound side b k) (hc : (b.clamp t size).constantValue = some c)
    (hk : side.Bounds k (limit t side.opposite size))
    (h : side.Bounds (limit t side.opposite size) c) :
    b = constant (limit t side.opposite size) := by
  have hlt := limit_lt t size
  rcases hb with rfl | ⟨c', rfl, hc'⟩
  · rw [clamp_infinity] at hc
    cases hc
    cases side <;> simp only [Side.Bounds, Side.opposite] at h <;> omega
  rw [clamp_constant] at hc
  cases hc
  congr 1
  cases side <;> simp only [Side.Bounds, Side.opposite, saturateTo] at * <;> omega

theorem overflowed_eq_false_iff :
    b.overflowed t size = some false ↔ ∃ c, b = constant c ∧ InSize t size c := by
  cases b with
  | constant c =>
    have hle := limit_le t size
    rw [overflowed, clamp_constant]
    simp only [Option.some.injEq, bne_eq_false_iff_eq, constant.injEq, exists_eq_left', InSize,
      saturateTo]
    omega
  | _ => simp [overflowed]

/-- The half-line of a value on a side contains a value of the size, or `x` is not its last one. -/
def Reaches (t : Target) (size : RangeSize) (side : Side) (k x : Int) : Prop :=
  side.Bounds k (limit t side.opposite size) ∨ x ≠ limit t side.opposite size

/-- What is beyond the clamped far bound of a value is beyond the value, if the value reaches the
size. -/
theorem clamp_far (hx : InSize t size x) (hb : IsBound side.opposite b k)
    (hc : (b.clamp t size).constantValue = some c) (h : side.Bounds c x)
    (hr : Reaches t size side k x) : side.Bounds k x := by
  have hle := limit_le t size
  obtain ⟨hx1, hx2⟩ := hx
  rcases hb with rfl | ⟨c', rfl, hc'⟩
  · rw [clamp_infinity] at hc
    cases hc
    cases side with
    | lower =>
      rcases hr with hr | hr
      · exact le_trans hr h
      · exact absurd (le_antisymm hx2 h) hr
    | upper =>
      rcases hr with hr | hr
      · exact le_trans h hr
      · exact absurd (le_antisymm h hx1) hr
  · rw [clamp_constant] at hc
    cases hc
    cases side with
    | lower =>
      change k ≤ c' at hc'
      change saturateTo t size c' ≤ x at h
      change k ≤ limit t .upper size ∨ x ≠ limit t .upper size at hr
      change k ≤ x
      rw [saturateTo] at h
      omega
    | upper =>
      change c' ≤ k at hc'
      change x ≤ saturateTo t size c' at h
      change limit t .lower size ≤ k ∨ x ≠ limit t .lower size at hr
      change x ≤ k
      rw [saturateTo] at h
      omega

end

/-! ## Boundaries with values -/

/-- The boundary is a constant or a symbol with an offset, and has the value `k`. The symbol is a
Smi. -/
structure Valued (g : FlowGraph) (v : DefId → Int) (b : RangeBoundary) (k : Int) : Prop where
  value : value v b = some k
  smi : ∀ {s offs}, b = symbol s offs → g.target.isSmi (v s) = true

section
variable {g : FlowGraph} {v : DefId → Int} {a b : RangeBoundary} {k c x : Int} {size : RangeSize}
  {side : Side} {n : Nat}

theorem value_known {k : Int} (h : value v b = some k) : b ≠ unknown := by
  rintro rfl
  cases h

theorem value_holds {side : Side} {x : Int} (h : value v b = some k) :
    Holds side v b x ↔ side.Bounds k x := by
  cases b with
  | symbol s offs | constant c => cases h; exact Iff.rfl
  | _ => cases h

theorem constantBound_value (hv : Consistent g v) (hs : SmiSymbols g v) (h : Valued g v b k)
    {side : Side} {n : Nat} {b' : RangeBoundary} (hb : g.constantBound side n b = some b') :
    IsBound side b' k := by
  cases n with
  | zero => cases hb
  | succ n =>
    cases b with
    | constant c => cases hb; cases h.value; exact .inr ⟨k, rfl, .refl side k⟩
    | symbol s offs =>
      cases h.value
      have hst := constantBound_step (constantBound_holds hv hs) hb
      rwa [saturate_smi (h.smi rfl)] at hst
    | _ => cases h.value

theorem boundOn_eq (h : g.boundOn n side b size = some c) :
    ∃ b', g.constantBound side n b = some b' ∧ (b'.clamp g.target size).constantValue = some c := by
  simpa only [boundOn, bind_eq_bind, bind_eq_some_iff] using h

section
variable (hv : Consistent g v) (hs : SmiSymbols g v) (hb : Valued g v b k)
include hv hs hb

/-- The clamped bound of a boundary bounds the values of the size that the boundary bounds. -/
theorem boundOn_near (hx : InSize g.target size x) (h : side.Bounds k x)
    (hc : g.boundOn n side b size = some c) : side.Bounds c x := by
  obtain ⟨b', hb', hc⟩ := boundOn_eq hc
  exact clamp_near hx (constantBound_value hv hs hb hb') h hc

theorem boundOn_far (hx : InSize g.target size x) (hc : g.boundOn n side.opposite b size = some c)
    (h : side.Bounds c x) (hr : Reaches g.target size side k x) : side.Bounds k x := by
  obtain ⟨b', hb', hc⟩ := boundOn_eq hc
  exact clamp_far hx (constantBound_value hv hs hb hb') hc h hr

/-- The far bound of a boundary that is the last value of the size, or beyond it. -/
theorem boundOn_far_last (hc : g.boundOn n side.opposite b size = some c)
    (h : side.Bounds (limit g.target side.opposite size) k) :
    c = limit g.target side.opposite size := by
  obtain ⟨b', hb', hc⟩ := boundOn_eq hc
  exact clamp_far_last (constantBound_value hv hs hb hb') hc h

theorem boundOn_near_last (hk : side.Bounds k (limit g.target side.opposite size))
    (hc : g.boundOn n side b size = some c)
    (h : side.Bounds (limit g.target side.opposite size) c) :
    g.constantBound side n b = some (constant (limit g.target side.opposite size)) := by
  obtain ⟨b', hb', hc⟩ := boundOn_eq hc
  rw [hb', clamp_near_last (constantBound_value hv hs hb hb') hc hk h]

end

theorem boundOn_inSize (h : g.boundOn n side b size = some c) : InSize g.target size c := by
  obtain ⟨b', -, hk⟩ := boundOn_eq h
  cases b' with
  | constant c' =>
    rw [clamp_constant] at hk
    cases hk
    exact inSize_saturateTo _ _ _
  | negativeInfinity => cases hk; exact inSize_limit _ .lower _
  | positiveInfinity => cases hk; exact inSize_limit _ .upper _
  | unknown | symbol s offs => cases hk

theorem within_iff {o : Bool} (h : g.constantBound side n a = some b)
    (ho : b.overflowed g.target size = some o) :
    (∃ c, g.constantBound side n a = some (constant c) ∧ InSize g.target size c) ↔ o = false := by
  rw [← Option.some_inj (a := o), ← ho, overflowed_eq_false_iff, h]
  simp only [some.injEq]

theorem boundOn_of_inSize (h : g.constantBound side n b = some (constant c))
    (hc : InSize g.target size c) (hk : g.boundOn n side b size = some k) : k = c := by
  rw [boundOn, h, some_bind, clamp_constant, saturateTo_of_inSize hc] at hk
  exact (Option.some.inj hk).symm

theorem equals_value (hv : Consistent g v) {k' : Int} (ha : value v a = some k)
    (hb : value v b = some k') (h : g.equals n a b = some true) : k = k' := by
  cases a with
  | constant c =>
    cases b with
    | constant c' => cases ha; cases hb; simpa [FlowGraph.equals] using h
    | symbol s' offs' => simp [FlowGraph.equals] at h
    | _ => cases hb
  | symbol s offs =>
    cases b with
    | constant c' => simp [FlowGraph.equals] at h
    | symbol s' offs' =>
      rw [FlowGraph.equals] at h
      split_ifs at h with ho
      · obtain ⟨_, _, _, _, heq, heq', hvl⟩ := dependOnSameSymbol_eq hv h
        cases heq
        cases heq'
        cases ha
        cases hb
        rw [hvl, ho]
      · cases h
    | _ => cases hb
  | _ => cases ha

/-! ## Canonical forms for a comparison -/

theorem canonicalizeLoopForComparison_holds (hv : Consistent g v) (hw : NoWrapAround g v) :
    ∀ {m : Nat} {a b a' b' : RangeBoundary},
      g.canonicalizeLoopForComparison n side m a b = some (some (a', b')) →
      (∀ x, Holds side v a x → Holds side v a' x) ∧ (∀ x, Holds side v b x → Holds side v b' x) ∧
        g.dependOnSameSymbol n a' b' = some true
  | 0, _, _, _, _, h => by cases h
  | m + 1, a, b, a', b', h => by
    simp only [canonicalizeLoopForComparison, pure_def, bind_eq_bind, bind_eq_some_iff] at h
    obtain ⟨same, hsm, h⟩ := h
    cases same with
    | true => cases h; exact ⟨fun x hx => hx, fun x hx => hx, hsm⟩
    | false =>
      simp only [false_eq_true, ↓reduceIte, bind_eq_some_iff] at h
      obtain ⟨ra, hra, h⟩ := h
      cases ra with
      | some a1 =>
        obtain ⟨h1, h2, h3⟩ := canonicalizeLoopForComparison_holds hv hw h
        exact ⟨fun x hx => h1 x (canonicalizeOn_holds hv hw hx hra), h2, h3⟩
      | none =>
        simp only [bind_eq_some_iff] at h
        obtain ⟨rb, hrb, h⟩ := h
        cases rb with
        | some b1 =>
          obtain ⟨h1, h2, h3⟩ := canonicalizeLoopForComparison_holds hv hw h
          exact ⟨h1, fun x hx => h2 x (canonicalizeOn_holds hv hw hx hrb), h3⟩
        | none => cases h

/-- The canonical boundary with the outer offset bounds what either boundary bounds. -/
theorem canonicalizeForComparison_covers (hv : Consistent g v) (hw : NoWrapAround g v)
    {a' b' : RangeBoundary}
    (h : g.canonicalizeForComparison n side a b = some (some (a', b'))) :
    ∃ ka kb, value v a' = some ka ∧ value v b' = some kb ∧ ka - kb = a'.offset - b'.offset ∧
      ∀ x, (Holds side v a x → side.Bounds ka x) ∧ (Holds side v b x → side.Bounds kb x) := by
  rw [canonicalizeForComparison] at h
  split_ifs at h
  · cases h
  obtain ⟨h1, h2, hsm⟩ := canonicalizeLoopForComparison_holds hv hw h
  obtain ⟨s, offs, s', offs', rfl, rfl, hvl⟩ := dependOnSameSymbol_eq hv hsm
  refine ⟨_, _, rfl, rfl, ?_, fun x => ⟨h1 x, h2 x⟩⟩
  change v s + offs - (v s' + offs') = offs - offs'
  omega

section
variable {rank : DefId → Nat} (hg : Acyclic g rank)
include hg

theorem canonicalizeLoopForComparison_terminates : ∀ {m : Nat} {a b : RangeBoundary},
    boundaryRank rank a ≤ n → boundaryRank rank b ≤ n →
    boundaryRank rank a + boundaryRank rank b < m →
    ∃ r, g.canonicalizeLoopForComparison n side m a b = some r
  | 0, _, _, _, _, h => absurd h (Nat.not_lt_zero _)
  | m + 1, a, b, ha, hb, h => by
    obtain ⟨same, hsm⟩ := dependOnSameSymbol_terminates hg ha hb
    obtain ⟨a', ha', hlt⟩ := @canonicalizeOn_terminates side g rank n a hg ha
    obtain ⟨b', hb', hlt'⟩ := @canonicalizeOn_terminates side g rank n b hg hb
    simp only [canonicalizeLoopForComparison, hsm, ha', hb', some_bind, pure_def]
    cases same with
    | true => exact ⟨_, rfl⟩
    | false =>
      cases a' with
      | some a' =>
        have := hlt a' rfl
        exact canonicalizeLoopForComparison_terminates (by omega) hb (by omega)
      | none =>
        cases b' with
        | some b' =>
          have := hlt' b' rfl
          exact canonicalizeLoopForComparison_terminates ha (by omega) (by omega)
        | none => exact ⟨none, rfl⟩

theorem canonicalizeForComparison_terminates
    (h : boundaryRank rank a + boundaryRank rank b < n) :
    ∃ r, g.canonicalizeForComparison n side a b = some r := by
  rw [canonicalizeForComparison]
  split_ifs
  · exact ⟨none, rfl⟩
  · exact canonicalizeLoopForComparison_terminates hg (by omega) (by omega) h

theorem boundOn_terminates (n : Nat) (side : Side) (size : RangeSize) (hb : b ≠ unknown)
    (h : boundaryRank rank b < n := by omega) : ∃ c, g.boundOn n side b size = some c := by
  obtain ⟨b', hb', hf⟩ := @constantBound_terminates side g rank hg n b hb h
  rw [boundOn, hb']
  rcases hf with rfl | ⟨c, rfl⟩
  · exact ⟨_, by rw [some_bind, clamp_infinity]; rfl⟩
  · exact ⟨_, by rw [some_bind, clamp_constant]; rfl⟩

theorem overflowed_terminates (n : Nat) (side : Side) (size : RangeSize) (hb : b ≠ unknown)
    (h : boundaryRank rank b < n := by omega) :
    ∃ b' o, g.constantBound side n b = some b' ∧ b'.overflowed g.target size = some o := by
  obtain ⟨b', hb', hf⟩ := @constantBound_terminates side g rank hg n b hb h
  refine ⟨b', ?_⟩
  rcases hf with rfl | ⟨c, rfl⟩
  · cases side
    · exact ⟨true, hb', rfl⟩
    · exact ⟨true, hb', rfl⟩
  · exact ⟨_, hb', rfl⟩

theorem equals_terminates (ha : boundaryRank rank a ≤ n) (hb : boundaryRank rank b ≤ n) :
    ∃ r, g.equals n a b = some r := by
  cases a with
  | symbol s offs =>
    cases b with
    | symbol s' offs' =>
      rw [FlowGraph.equals]
      split_ifs
      · exact dependOnSameSymbol_terminates hg ha hb
      · exact ⟨false, rfl⟩
    | _ => exact ⟨_, rfl⟩
  | constant c =>
    cases b with
    | _ => exact ⟨_, rfl⟩
  | _ => exact ⟨_, rfl⟩

end

/-! ## The joins of boundaries -/

/-- The boundary `c` has a value that bounds what one of two values bounds on a side, among the
values of the size. -/
def Covers (t : Target) (size : RangeSize) (v : DefId → Int) (side : Side) (ka kb : Int)
    (c : RangeBoundary) : Prop :=
  ∃ kc, value v c = some kc ∧
    ∀ x, InSize t size x → side.Bounds ka x ∨ side.Bounds kb x → side.Bounds kc x

/-- The boundaries are equal, or become symbols with offsets from one definition. -/
def Comparable (g : FlowGraph) (n : Nat) (side : Side) (a b : RangeBoundary) : Prop :=
  g.equals n a b = some true ∨ ∃ p, g.canonicalizeForComparison n side a b = some (some p)

/-- `a`, with the value `ka`, stands for `b`, with the value `kb`, although it is beyond the size:
its constant bound is of the size, and that of `b` is the last value of the size. -/
structure Hides (g : FlowGraph) (n : Nat) (size : RangeSize) (side : Side) (a b : RangeBoundary)
    (ka kb : Int) : Prop where
  beyond : ¬ side.Bounds ka (limit g.target side.opposite size)
  within : ∃ c, g.constantBound side n a = some (constant c) ∧ InSize g.target size c
  last : g.constantBound side n b = some (constant (limit g.target side.opposite size))
  reaches : side.Bounds kb (limit g.target side.opposite size)

/-- One of the two boundaries hides the other one. `a` is tried first, so it stands for `b` if the
constant bounds of both are the last value of the size. -/
def OneHides (g : FlowGraph) (n : Nat) (size : RangeSize) (side : Side) (a b : RangeBoundary)
    (ka kb : Int) : Prop :=
  Hides g n size side a b ka kb ∨ Hides g n size side b a kb ka ∧
    g.constantBound side n b ≠ some (constant (limit g.target side.opposite size))

theorem Covers.symm {t : Target} {ka kb : Int} {c : RangeBoundary}
    (h : Covers t size v side ka kb c) : Covers t size v side kb ka c := by
  obtain ⟨kc, hc, hcv⟩ := h
  exact ⟨kc, hc, fun x hx hor => hcv x hx hor.symm⟩

section
variable (hv : Consistent g v) {ka kb : Int} (ha : Valued g v a ka) (hb : Valued g v b kb)
include hv ha hb

theorem covers_equal (h : g.equals n a b = some true) : Covers g.target size v side ka kb b := by
  refine ⟨kb, hb.value, fun x _ hor => ?_⟩
  rw [equals_value hv ha.value hb.value h] at hor
  exact hor.elim id id

theorem covers_canonical (hw : NoWrapAround g v) {a' b' : RangeBoundary}
    (h : g.canonicalizeForComparison n side a b = some (some (a', b'))) :
    Covers g.target size v side ka kb (if side.Bounds a'.offset b'.offset then a' else b') := by
  obtain ⟨ka', kb', ha', hb', hsb, hhl⟩ := canonicalizeForComparison_covers hv hw h
  have hor : ∀ x, side.Bounds ka x ∨ side.Bounds kb x → side.Bounds ka' x ∨ side.Bounds kb' x :=
    fun x => Or.imp (fun hx => (hhl x).1 ((value_holds ha.value).2 hx))
      (fun hx => (hhl x).2 ((value_holds hb.value).2 hx))
  split_ifs with ho
  · refine ⟨ka', ha', fun x _ hx => ?_⟩
    have hab : side.Bounds ka' kb' := by
      cases side <;> simp only [Side.Bounds] at ho ⊢ <;> omega
    exact (hor x hx).elim id hab.trans
  · refine ⟨kb', hb', fun x _ hx => ?_⟩
    have hba : side.Bounds kb' ka' := by
      cases side <;> simp only [Side.Bounds] at ho ⊢ <;> omega
    exact (hor x hx).elim hba.trans id

variable (hs : SmiSymbols g v) {far far' near near' m : Int}
include hs

/-- A boundary whose far bound is beyond the near bound of another one covers both, unless it hides
the other one. -/
theorem covers_left_iff (hf : g.boundOn n side.opposite a size = some far)
    (hnr : g.boundOn n side b size = some near)
    (hwi : ∃ c, g.constantBound side n a = some (constant c) ∧ InSize g.target size c)
    (h : side.Bounds far near) :
    Covers g.target size v side ka kb a ↔ ¬ Hides g n size side a b ka kb := by
  constructor
  · rintro ⟨kc, hc, hcv⟩ hh
    rw [ha.value] at hc
    cases hc
    exact hh.beyond (hcv _ (inSize_limit ..) (.inr hh.reaches))
  · refine fun hno => ⟨ka, ha.value, fun x hx hor => ?_⟩
    rcases hor with hka | hkb
    · exact hka
    by_cases hr : Reaches g.target size side ka x
    · exact boundOn_far hv hs ha hx hf (h.trans (boundOn_near hv hs hb hx hkb hnr)) hr
    -- Only the last value of the size is left, and `a` is beyond it.
    obtain ⟨hby, hxl⟩ := not_or.1 hr
    obtain rfl := not_not.1 hxl
    exact absurd ⟨hby, hwi, boundOn_near_last hv hs hb hkb hnr
      (boundOn_far_last hv hs ha hf (Side.Bounds.of_not hby) ▸ h), hkb⟩ hno

/-- A constant covers both boundaries if it is beyond their near bounds. -/
theorem covers_constant (hna : g.boundOn n side a size = some near)
    (hnb : g.boundOn n side b size = some near') (hma : side.Bounds m near)
    (hmb : side.Bounds m near') : Covers g.target size v side ka kb (constant m) := by
  refine ⟨m, rfl, fun x hx hor => ?_⟩
  rcases hor with hka | hkb
  · exact hma.trans (boundOn_near hv hs ha hx hka hna)
  · exact hmb.trans (boundOn_near hv hs hb hx hkb hnb)

section
variable (hfa : g.boundOn n side.opposite a size = some far)
  (hfb : g.boundOn n side.opposite b size = some far')
  (hnb : g.boundOn n side b size = some near')
include hfa hfb hnb

theorem Hides.bounds (h : Hides g n size side a b ka kb) :
    far = limit g.target side.opposite size ∧ far' = limit g.target side.opposite size ∧
      near' = limit g.target side.opposite size := by
  have hbk : side.Bounds (limit g.target side.opposite size) kb :=
    isBound_constantValue (constantBound_value hv hs hb h.last) rfl
  exact ⟨boundOn_far_last hv hs ha hfa (.of_not h.beyond), boundOn_far_last hv hs hb hfb hbk,
    boundOn_of_inSize h.last (inSize_limit ..) hnb⟩

/-- **The choice between two boundaries**, of which `a` is tried first, is right unless one of them
hides the other one. -/
theorem covers_choice_iff {ca cb : RangeBoundary} {oa ob : Bool}
    (hna : g.boundOn n side a size = some near) (hca : g.constantBound side n a = some ca)
    (hoa : ca.overflowed g.target size = some oa) (hcb : g.constantBound side n b = some cb)
    (hob : cb.overflowed g.target size = some ob) (hma : side.Bounds m near)
    (hmb : side.Bounds m near') :
    Covers g.target size v side ka kb
        (if side.Bounds far near' ∧ oa = false then a
          else if side.Bounds far' near ∧ ob = false then b else constant m) ↔
      ¬ OneHides g n size side a b ka kb := by
  have hwa := within_iff hca hoa
  have hwb := within_iff hcb hob
  by_cases h1 : side.Bounds far near' ∧ oa = false
  · rw [if_pos h1, covers_left_iff hv ha hb hs hfa hnb (hwa.2 h1.2) h1.1, OneHides, or_iff_left]
    rintro ⟨hh, hne⟩
    obtain ⟨-, rfl, -⟩ := hh.bounds hv hb ha hs hfb hfa hna
    obtain ⟨c, hc, hin⟩ := hh.within
    obtain rfl := boundOn_of_inSize hc hin hnb
    exact hne (hc.trans (congrArg _ (congrArg _ (hin.bounds_limit.antisymm h1.1))))
  rw [if_neg h1]
  have hno : ¬ Hides g n size side a b ka kb := by
    intro hh
    obtain ⟨rfl, -, rfl⟩ := hh.bounds hv ha hb hs hfa hfb hnb
    exact h1 ⟨.refl _ _, hwa.1 hh.within⟩
  rw [OneHides, or_iff_right hno]
  by_cases h2 : side.Bounds far' near ∧ ob = false
  · rw [if_pos h2]
    have hsw : Covers g.target size v side ka kb b ↔ Covers g.target size v side kb ka b :=
      ⟨.symm, .symm⟩
    rw [hsw, covers_left_iff hv hb ha hs hfb hna (hwb.2 h2.2) h2.1]
    refine not_congr ⟨fun hh => ⟨hh, fun hl => h1 ?_⟩, And.left⟩
    obtain ⟨-, rfl, -⟩ := hh.bounds hv hb ha hs hfb hfa hna
    obtain rfl := boundOn_of_inSize hl (inSize_limit ..) hnb
    exact ⟨.refl _ _, hwa.1 ⟨_, hh.last, inSize_limit ..⟩⟩
  · rw [if_neg h2]
    refine iff_of_true (covers_constant hv ha hb hs hna hnb hma hmb) fun ⟨hh, _⟩ => h2 ?_
    obtain ⟨rfl, -, rfl⟩ := hh.bounds hv hb ha hs hfb hfa hna
    exact ⟨.refl _ _, hwb.1 hh.within⟩

end

end

section
variable {rank : DefId → Nat} (hg : Acyclic g rank) (hv : Consistent g v) (hw : NoWrapAround g v)
  (hs : SmiSymbols g v) {ka kb : Int} (ha : Valued g v a ka) (hb : Valued g v b kb)
  (hn : boundaryRank rank a + boundaryRank rank b < n)
include hg hv hw hs ha hb hn

/-- `JoinMin` covers both boundaries from below, and `JoinMax` from above, iff they are comparable
or none of them hides the other one. `JoinMin` tries `a` first, `JoinMax` tries `b` first. -/
theorem join_covers_iff (side : Side) :
    ∃ c, (match side with
        | .lower => g.joinMin n a b size
        | .upper => g.joinMax n a b size) = some c ∧
      (Covers g.target size v side ka kb c ↔ Comparable g n side a b ∨
        match side with
        | .lower => ¬ OneHides g n size .lower a b ka kb
        | .upper => ¬ OneHides g n size .upper b a kb ka) := by
  obtain ⟨eq, heq⟩ := @equals_terminates g a b n rank hg (by omega) (by omega)
  obtain ⟨can, hcn⟩ := @canonicalizeForComparison_terminates g a b side n rank hg hn
  have hna := value_known ha.value
  have hnb := value_known hb.value
  obtain ⟨infA, hi⟩ := boundOn_terminates hg n .lower size hna
  obtain ⟨infB, hin⟩ := boundOn_terminates hg n .lower size hnb
  obtain ⟨supA, hsp⟩ := boundOn_terminates hg n .upper size hna
  obtain ⟨supB, hsb⟩ := boundOn_terminates hg n .upper size hnb
  obtain ⟨a', oa, ha', hoa⟩ := overflowed_terminates hg n side size hna
  obtain ⟨b', ob, hb', hob⟩ := overflowed_terminates hg n side size hnb
  cases eq with
  | true =>
    refine ⟨b, ?_, iff_of_true (covers_equal hv ha hb heq) (.inl (.inl heq))⟩
    cases side <;> simp [joinMin, joinMax, heq]
  | false =>
    cases can with
    | some p =>
      refine ⟨_, ?_, iff_of_true (covers_canonical hv ha hb hw hcn) (.inl (.inr ⟨p, hcn⟩))⟩
      cases side <;> simp only [joinMin, joinMax, heq, hcn, some_bind] <;> rfl
    | none =>
      have hno : ¬ Comparable g n side a b := by simp [Comparable, heq, hcn]
      rw [or_iff_right hno]
      cases side with
      | lower =>
        simp only [joinMin, lowerBound, heq, hcn, hi, hin, hsp, hsb, ha', hb', hoa, hob,
          some_bind, pure_def, false_eq_true, ↓reduceIte, and_eq_true, decide_eq_true_eq,
          not_eq_true', ← apply_ite some]
        exact ⟨_, rfl, covers_choice_iff hv ha hb hs hsp hsb hin hi ha' hoa hb' hob
          (min_le_left _ _) (min_le_right _ _)⟩
      | upper =>
        simp only [joinMax, upperBound, heq, hcn, hi, hin, hsp, hsb, ha', hb', hoa, hob,
          some_bind, pure_def, false_eq_true, ↓reduceIte, and_eq_true, decide_eq_true_eq,
          not_eq_true', ← apply_ite some]
        refine ⟨_, rfl, ?_⟩
        have hc := covers_choice_iff hv hb ha hs hin hi hsp hsb hb' hob ha' hoa
          (le_max_right supA supB) (le_max_left supA supB)
        exact ⟨fun h => hc.1 h.symm, fun h => (hc.2 h).symm⟩

end

/-! ## The join of ranges -/

/-- The boundaries of the range have values. -/
structure ValuedRange (g : FlowGraph) (v : DefId → Int) (r : Range) (lo hi : Int) : Prop where
  min : Valued g v r.min lo
  max : Valued g v r.max hi

theorem value_finite (h : value v b = some k) : b.isInfinity = false := by
  cases b with
  | symbol s offs | constant c => rfl
  | _ => cases h

theorem new_eq {k' : Int} (ha : value v a = some k) (hb : value v b = some k') :
    (Range.new a b).min = a ∧ (Range.new a b).max = b := by
  rw [Range.new, dif_pos ⟨value_finite ha, value_finite hb⟩]
  exact ⟨rfl, rfl⟩

/-- The range contains the values of the size between two bounds. -/
def ContainsAll (t : Target) (size : RangeSize) (v : DefId → Int) (r : Range) (lo hi : Int) :
    Prop :=
  ∀ x, InSize t size x → lo ≤ x → x ≤ hi → Contains v r.min r.max x

theorem containsAll_new_iff {t : Target} {lo hi k' : Int} (ha : value v a = some k)
    (hb : value v b = some k') : ContainsAll t size v (Range.new a b) lo hi ↔
      ∀ x, InSize t size x → lo ≤ x → x ≤ hi → k ≤ x ∧ x ≤ k' := by
  obtain ⟨hmn, hmx⟩ := new_eq ha hb
  refine forall_congr' fun x => forall₃_congr fun _ _ _ => ?_
  rw [hmn, hmx]
  constructor
  · rintro ⟨k1, k2, h1, h2, h⟩
    rw [ha] at h1
    rw [hb] at h2
    cases h1
    cases h2
    exact h
  · exact fun h => ⟨k, k', ha, hb, h⟩

/-- No value of the size is between the bounds. -/
def NoneBetween (t : Target) (size : RangeSize) (lo hi : Int) : Prop :=
  ∀ x, InSize t size x → lo ≤ x → ¬ x ≤ hi

/-- A range that is empty does not cut off a value of the other one with the boundary that is kept,
the minimum of the lower range and the maximum of the upper one. -/
structure NoCut (t : Target) (size : RangeSize) (lo hi lo' hi' : Int) : Prop where
  min : NoneBetween t size lo hi → ∀ x, InSize t size x → lo' ≤ x → x ≤ hi' → lo ≤ x
  max : NoneBetween t size lo' hi' → ∀ x, InSize t size x → lo ≤ x → x ≤ hi → x ≤ hi'

theorem noCut_iff {t : Target} {lo hi lo' hi' : Int}
    (h : ∀ x w, InSize t size x → InSize t size w → lo ≤ x → x ≤ hi → lo' ≤ w → w ≤ hi' → x ≤ w) :
    NoCut t size lo hi lo' hi' ↔
      (∀ x, InSize t size x → lo ≤ x → x ≤ hi → lo ≤ x ∧ x ≤ hi') ∧
        ∀ x, InSize t size x → lo' ≤ x → x ≤ hi' → lo ≤ x ∧ x ≤ hi' := by
  constructor
  · intro hc
    refine ⟨fun x hx h1 h2 => ⟨h1, ?_⟩, fun x hx h1 h2 => ⟨?_, h2⟩⟩
    · by_contra hlt
      refine hlt (hc.max (fun w hw h1' h2' => ?_) x hx h1 h2)
      exact hlt ((h x w hx hw h1 h2 h1' h2').trans h2')
    · by_contra hlt
      refine hlt (hc.min (fun w hw h1' h2' => ?_) x hx h1 h2)
      exact hlt (h1'.trans (h w x hw hx h1' h2' h1 h2))
  · exact fun hc => ⟨fun _ x hx h1 h2 => (hc.2 x hx h1 h2).1,
      fun _ x hx h1 h2 => (hc.1 x hx h1 h2).2⟩

/-- The constant bounds put the range below the other one. -/
def IsBelow (g : FlowGraph) (n : Nat) (size : RangeSize) (r other : Range) : Prop :=
  ∃ sup inf, g.boundOn n .upper r.max size = some sup ∧
    g.boundOn n .lower other.min size = some inf ∧ sup ≤ inf

theorem isBelow_iff {r other : Range} {sup inf : Int}
    (hsup : g.boundOn n .upper r.max size = some sup)
    (hinf : g.boundOn n .lower other.min size = some inf) :
    IsBelow g n size r other ↔ sup ≤ inf := by
  simp [IsBelow, hsup, hinf]

/-- The last values of the size are bounds of ranges that can be compared. -/
theorem Hides.isBelow {rg ot : Range} {sup inf : Int} (lo hi lo' hi' : Int)
    (hsup : g.boundOn n .upper rg.max size = some sup)
    (hinf : g.boundOn n .lower ot.min size = some inf) :
    (Hides g n size .lower rg.min ot.min lo lo' → sup ≤ inf) ∧
      (Hides g n size .upper ot.max rg.max hi' hi → sup ≤ inf) := by
  refine ⟨fun hh => ?_, fun hh => ?_⟩
  · rw [boundOn_of_inSize hh.last (inSize_limit ..) hinf]
    exact (boundOn_inSize hsup).2
  · rw [boundOn_of_inSize hh.last (inSize_limit ..) hsup]
    exact (boundOn_inSize hinf).1

/-- When a join of two ranges contains both: if the constant bounds put one below the other, a range
that is empty does not cut off a value of the other one. -/
def JoinCondition (g : FlowGraph) (n : Nat) (size : RangeSize) (r other : Range)
    (lo hi lo' hi' : Int) : Prop :=
  (IsBelow g n size r other → NoCut g.target size lo hi lo' hi') ∧
    (¬ IsBelow g n size r other → IsBelow g n size other r → NoCut g.target size lo' hi' lo hi)

section
variable {rank : DefId → Nat} (hg : Acyclic g rank) (hv : Consistent g v) (hw : NoWrapAround g v)
  (hs : SmiSymbols g v) {rg ot : Range} {lo hi lo' hi' : Int} (hr : ValuedRange g v rg lo hi)
  (ho : ValuedRange g v ot lo' hi')
include hv hs hr ho

theorem IsBelow.le (h : IsBelow g n size rg ot) {x w : Int} (hx : InSize g.target size x)
    (hw : InSize g.target size w) (hhi : x ≤ hi) (hlo : lo' ≤ w) : x ≤ w := by
  obtain ⟨sup, inf, hsup, hinf, hle⟩ := h
  have hxs : Side.upper.Bounds sup x := boundOn_near hv hs hr.max hx hhi hsup
  have hiw : Side.lower.Bounds inf w := boundOn_near hv hs ho.min hw hlo hinf
  exact (show x ≤ sup from hxs).trans (hle.trans (show inf ≤ w from hiw))

include hg hw

/-- **A join of ranges contains both** exactly under the condition. -/
theorem joinRanges_contains_iff (size : RangeSize)
    (hn : boundaryRank rank rg.min + boundaryRank rank ot.min < n)
    (hn' : boundaryRank rank rg.max + boundaryRank rank ot.max < n) :
    ∃ r, g.joinRanges n rg ot size = some r ∧
      ((ContainsAll g.target size v r lo hi ∧ ContainsAll g.target size v r lo' hi') ↔
        JoinCondition g n size rg ot lo hi lo' hi') := by
  obtain ⟨infR, hin⟩ := boundOn_terminates hg n .lower size (value_known hr.min.value)
  obtain ⟨infO, hif⟩ := boundOn_terminates hg n .lower size (value_known ho.min.value)
  obtain ⟨supR, hsp⟩ := boundOn_terminates hg n .upper size (value_known hr.max.value)
  obtain ⟨supO, hsu⟩ := boundOn_terminates hg n .upper size (value_known ho.max.value)
  have hbl := isBelow_iff hsp hif
  have hab := isBelow_iff hsu hin
  simp only [joinRanges, hin, hif, hsp, hsu, some_bind]
  split_ifs with h1 h2
  · rw [← hbl] at h1
    refine ⟨_, rfl, ?_⟩
    rw [containsAll_new_iff hr.min.value ho.max.value,
      containsAll_new_iff hr.min.value ho.max.value, JoinCondition, ← noCut_iff]
    · exact ⟨fun h => ⟨fun _ => h, fun hno => absurd h1 hno⟩, fun h => h.1 h1⟩
    · exact fun x w hx hw _ hhi hlo _ => h1.le hv hs hr ho hx hw hhi hlo
  · rw [← hbl] at h1
    rw [← hab] at h2
    refine ⟨_, rfl, ?_⟩
    rw [containsAll_new_iff ho.min.value hr.max.value,
      containsAll_new_iff ho.min.value hr.max.value, JoinCondition, And.comm, ← noCut_iff]
    · exact ⟨fun h => ⟨fun hb => absurd hb h1, fun _ _ => h⟩, fun h => h.2 h1 h2⟩
    · exact fun x w hx hw _ hhi hlo _ => h2.le hv hs ho hr hx hw hhi hlo
  · have hh1 := Hides.isBelow lo hi lo' hi' hsp hif
    have hh2 := Hides.isBelow lo' hi' lo hi hsu hin
    obtain ⟨cmin, hc, hmn⟩ :=
      @join_covers_iff g v _ _ size n rank hg hv hw hs _ _ hr.min ho.min hn .lower
    obtain ⟨cmax, hcm, hmx⟩ :=
      @join_covers_iff g v _ _ size n rank hg hv hw hs _ _ hr.max ho.max hn' .upper
    obtain ⟨kmin, hk, hm⟩ := hmn.2 (.inr fun hh =>
      hh.elim (fun hh => h1 (hh1.1 hh)) fun hh => h2 (hh2.1 hh.1))
    obtain ⟨kmax, hkm, hmx⟩ := hmx.2 (.inr fun hh =>
      hh.elim (fun hh => h1 (hh1.2 hh)) fun hh => h2 (hh2.2 hh.1))
    dsimp only at hc hcm
    rw [hc, hcm]
    refine ⟨_, rfl, iff_of_true ⟨?_, ?_⟩ ⟨fun h => absurd (hbl.1 h) h1,
      fun _ h => absurd (hab.1 h) h2⟩⟩
    · exact (containsAll_new_iff hk hkm).2 fun x hx hlo hhi =>
        ⟨hm x hx (.inl hlo), hmx x hx (.inl hhi)⟩
    · exact (containsAll_new_iff hk hkm).2 fun x hx hlo hhi =>
        ⟨hm x hx (.inr hlo), hmx x hx (.inr hhi)⟩

end

/-- A range that depends on a definition as a symbol makes it a Smi. -/
theorem dependsOn_isSmi (hv : Consistent g v) {rg : Range} {defn : DefId} {lo hi : Int}
    (hr : ValuedRange g v rg lo hi) (h : g.dependsOn n rg defn = some true) :
    g.target.isSmi (v defn) = true := by
  simp only [dependsOn, pure_def, bind_eq_bind, bind_eq_some_iff, some.injEq, or_eq_true] at h
  obtain ⟨u, hu, d1, hd1, d2, hd2, hor⟩ := h
  have hsy : ∀ {b k}, Valued g v b k → g.dependsOnSymbol n b u = some true →
      g.target.isSmi (v defn) = true := by
    intro b k hb hd
    cases b with
    | symbol s offs =>
      simp only [dependsOnSymbol, Option.map_eq_map, map_eq_some_iff, beq_iff_eq] at hd
      obtain ⟨u', hu', rfl⟩ := hd
      rw [← unwrapConstraint_eq hv hu, unwrapConstraint_eq hv hu']
      exact hb.smi rfl
    | _ => cases hd
  rcases hor with rfl | rfl
  · exact hsy hr.min hd1
  · exact hsy hr.max hd2

theorem valued_fromDefinition (hv : Consistent g v) {d : DefId}
    (hd : g.target.isSmi (v d) = true) : Valued g v (g.fromDefinition d 0) (v d) := by
  rw [fromDefinition]
  cases hc : (g.definition d).asSmiConstant with
  | some c =>
    refine ⟨?_, fun h => by cases h⟩
    change some (c + 0) = some (v d)
    rw [hv.smi hc, Int.add_zero]
  | none =>
    refine ⟨by rw [value, Int.add_zero], fun h => ?_⟩
    cases h
    exact hd

theorem dependsOn_terminates {rank : DefId → Nat} (hg : Acyclic g rank) {rg : Range}
    {defn : DefId} (hm : boundaryRank rank rg.min ≤ n) (hmx : boundaryRank rank rg.max ≤ n)
    (hdf : rank defn < n) : ∃ d, g.dependsOn n rg defn = some d := by
  obtain ⟨u, hu⟩ := unwrapConstraint_terminates hg hdf
  have hsy : ∀ {b}, boundaryRank rank b ≤ n → ∃ d, g.dependsOnSymbol n b u = some d := by
    intro b hb
    cases b with
    | symbol s offs =>
      obtain ⟨u', hu'⟩ := unwrapConstraint_terminates hg hb
      exact ⟨_, by rw [dependsOnSymbol, hu']; rfl⟩
    | _ => exact ⟨false, rfl⟩
  obtain ⟨d1, hd1⟩ := hsy hm
  obtain ⟨d2, hd2⟩ := hsy hmx
  exact ⟨d1 || d2, by rw [dependsOn, hu, some_bind, hd1, hd2]; rfl⟩

end

/-- Definitions that nothing is known of. -/
def plainDefinitions : FlowGraph where
  target := ⟨62⟩
  definition d := .other d 0 [] false none
  range _ := none

theorem plainDefinitions_consistent (v : DefId → Int) : Consistent plainDefinitions v where
  smi := nofun
  constraint := nofun
  redefined := nofun
  add := nofun
  sub := nofun
  cse := nofun
  range := nofun

theorem plainDefinitions_acyclic : Acyclic plainDefinitions fun _ => 0 where
  constraint := nofun
  redefined := nofun
  operand := nofun
  smiOperand := nofun
  symbol := nofun
  known := nofun

/-- The symbol 0 is the greatest Smi. -/
def greatestSymbol : DefId → Int := fun _ => 2 ^ 62 - 1

/-- An array length 0 (definition 0), and the value 3. -/
def zeroLength : DefId → Int := fun d => if d = 0 then 0 else 3

/-- An index that is at least 5 and below the length. -/
def checkedIndex : Range := ⟨constant 5, symbol 0 (-1), rfl, rfl⟩

end Backend.Proof
