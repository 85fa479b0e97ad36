import DartSdk.Compiler.Ssa.Proof.Bounds

/-!
# Decisions of the value range analysis

* `Built`: the ranges which the analysis builds, from constants, instructions and lengths.
* `lt_of_lt` to `ge_of_ge`: what the comparisons of ranges say.
* `valueRange_right_iff`: **when marks of bounds checks and folded comparisons are right**.
* `valueRange_unsound`: what goes wrong otherwise.
-/

namespace Compiler.Ssa

open Value Range Bool

variable {Instruction : Type}

/-! ## Ranges of the analysis -/

section
variable [DecidableEq Instruction]

/-- The ranges which the analysis builds. Those of the update of a loop may have markers. -/
inductive Built (positive : Instruction → Prop) : Bool → Range Instruction → Prop
  | unbound {m} : Built positive m unbound
  | constant {m c} (h : IsDouble c) : Built positive m (visitConstant c)
  | instruction {m} (type : IntegerType) (i) (h : type = .positiveInteger → positive i) :
    Built positive m (visitInstruction type i)
  | getLength {m} (i) (h : positive i) : Built positive m (visitGetLength i)
  | phi {m r rs} (h : Built positive m r) (hs : ∀ r' ∈ rs, Built positive m r') :
    Built positive m (visitPhi r rs)
  | add {m r₁ r₂} (h₁ : Built positive m r₁) (h₂ : Built positive m r₂) :
    Built positive m (r₁ + r₂)
  | subtract {m r₁ r₂} (h₁ : Built positive m r₁) (h₂ : Built positive m r₂) :
    Built positive m (r₁ - r₂)
  | negate {m r} (h : Built positive m r) : Built positive m (-r)
  | bitAnd {m r₁ r₂} (h₁ : Built positive m r₁) (h₂ : Built positive m r₂) :
    Built positive m (r₁.and r₂)
  | tryBitAnd {m r} (h : Built positive m r) : Built positive m (tryComputeRange r)
  | modulo {m r} (types : OperandTypes) (h : Built positive m r) :
    Built positive m (handleInvokeModulo types (some r))
  | remainder {m r} (isPositiveInteger : Bool) (types : OperandTypes) (dividend)
    (h : Built positive m r) :
    Built positive m (visitRemainder isPositiveInteger types dividend (some r))
  | constrained {m r₁ r₂} (operation : RelationalOperation) (h₁ : Built positive m r₁)
    (h₂ : Built positive m r₂) : Built positive m (computeConstrainedRange operation r₁ r₂)
  | checkedIndex {m r₁ r₂} (h₁ : Built positive m r₁) (h₂ : Built positive m r₂) :
    Built positive m (visitBoundsCheck r₁ r₂).range
  | checkedLength {m r₁ r₂ r} (h₁ : Built positive m r₁) (h₂ : Built positive m r₂)
    (h : (visitBoundsCheck r₁ r₂).lengthRange = some r) : Built positive m r
  | outside {r} (h : Built positive false r) : Built positive true r
  | marker (isPositive : Bool) :
    Built positive true (Range.normalize (marker true isPositive) (marker false isPositive))
  | loop {r₁ r₂} (isPositive : Bool) (h₁ : Built positive false r₁) (h₂ : Built positive true r₂) :
    Built positive false (loopPhi isPositive r₁ r₂)

end

/-- A range with bounds of the right form. -/
structure Range.Conforms (positive : Instruction → Prop) (markers : Bool) (r : Range Instruction) :
    Prop where
  lower : r.lower.Conforms positive markers .lower
  upper : r.upper.Conforms positive markers .upper

variable {positive : Instruction → Prop} {m : Bool} {s : Bound} {ρ : Instruction → ℤ}
  {a b v w : Value Instruction} {r r₁ r₂ : Range Instruction}

theorem Value.Conforms.ne_unknown (h : a.Conforms positive m s) : a ≠ unknown := by
  rintro rfl
  exact h

theorem conforms_unbound : (unbound : Range Instruction).Conforms positive m := ⟨rfl, rfl⟩

/-- One of two bounds, or unknown. -/
theorem bounds_of_choice (ha : a.Conforms positive m s) (hb : b.Conforms positive m s)
    (h : v = a ∨ v = b ∨ v = unknown) : v.Bounds positive m s := by
  rcases h with rfl | rfl | rfl
  · exact .inr ha
  · exact .inr hb
  · exact .inl rfl

theorem bounds_and (c d : ℤ) :
    (Value.and (int c) (int d) : Value Instruction).Bounds positive m s := by
  rw [Value.and]
  cases h : ConstantSystem.bitAnd c d with
  | none => exact .inl rfl
  | some e =>
    obtain ⟨e', -, h⟩ := Option.bind_eq_some_iff.mp h
    cases h
    refine .inr (isDouble_of_lt ?_)
    have := Int.emod_lt_of_pos e' (show (0 : ℤ) < 2 ^ 32 by norm_num)
    omega

theorem conforms_one : (int 1 : Value Instruction).Conforms positive m s :=
  isDouble_of_lt (by norm_num)

/-- The divisor may be negative only where its range is not positive. -/
theorem conforms_negate (h : r.Conforms positive m) (hr : ¬ r.isPositive = true) :
    (negate r.lower).Conforms positive m .upper :=
  ⟨h.lower, fun h => (nomatch h), fun _ hp => absurd hp hr⟩

def Value.hasMarker : Value Instruction → Bool
  | marker _ _ => true
  | add l r | subtract l r => l.hasMarker || r.hasMarker
  | negate a => a.hasMarker
  | _ => false

theorem Same.hasMarker_eq (h : Same a b) : a.hasMarker = b.hasMarker := by
  induction h with
  | add _ _ ihl ihr | subtract _ _ ihl ihr => rw [hasMarker, hasMarker, ihl, ihr]
  | addSwap _ _ ihl ihr => rw [hasMarker, hasMarker, ihl, ihr, Bool.or_comm]
  | negate _ ih => rw [hasMarker, hasMarker, ih]
  | _ => rfl

theorem Value.Conforms.hasMarker (h : a.Conforms positive false s) : a.hasMarker = false := by
  induction a generalizing s with
  | marker => cases h.1
  | add l r ihl ihr | subtract l r ihl ihr => rw [Value.hasMarker, ihl h.1, ihr h.2.1]; rfl
  | negate a ih => exact ih h.1
  | _ => rfl

theorem Value.Conforms.of_markers {m' : Bool} (h : a.Conforms positive m s)
    (ha : m' = true ∨ a.hasMarker = false) : a.Conforms positive m' s := by
  induction a generalizing s with
  | marker => exact ⟨ha.resolve_right nofun, h.2⟩
  | add l r ihl ihr | subtract l r ihl ihr =>
    simp only [Value.hasMarker, or_eq_false_iff, or_and_left] at ha
    exact ⟨ihl h.1 ha.1, ihr h.2.1 ha.2, h.2.2⟩
  | negate a ih => exact ⟨ih h.1 ha, h.2⟩
  | _ => exact h

variable [DecidableEq Instruction]

theorem equals_unknown_of_ne (h : a ≠ unknown) : (a == unknown) = false := by
  cases a <;> first | rfl | exact absurd rfl h

theorem conforms_normalize (ha : a.Bounds positive m .lower) (hb : b.Bounds positive m .upper) :
    (Range.normalize a b).Conforms positive m := by
  constructor
  · rcases ha with rfl | ha
    · rfl
    · rw [Range.normalize, equals_unknown_of_ne ha.ne_unknown]
      exact ha
  · rcases hb with rfl | hb
    · rfl
    · rw [Range.normalize, equals_unknown_of_ne hb.ne_unknown]
      exact hb

theorem choice_of_chosen (h : Chosen s a b v) : v = a ∨ v = b ∨ v = unknown := by
  cases h <;> simp

theorem extreme_choice (a b : Value Instruction) (s : Bound) :
    a.extreme s b = a ∨ a.extreme s b = b ∨ a.extreme s b = unknown := by
  rcases extreme_chosen s a b with h | ⟨-, -, h⟩
  · exact choice_of_chosen h
  · exact or_left_comm.mp (choice_of_chosen h)

theorem pick_choice (h : v = a ∨ v = b ∨ v = unknown) : pick v a b = a ∨ pick v a b = b := by
  rw [pick]
  split
  · split
    · exact .inl rfl
    · split
      · exact .inr rfl
      · exact .inl rfl
  next hv =>
    rcases h with h | h | rfl
    · exact .inl h
    · exact .inr h
    · exact absurd rfl hv

section
variable (h₁ : r₁.Conforms positive m) (h₂ : r₂.Conforms positive m)
include h₁ h₂

theorem conforms_union : (r₁.union r₂).Conforms positive m :=
  conforms_normalize (bounds_of_choice h₁.lower h₂.lower (extreme_choice _ _ .lower))
    (bounds_of_choice h₁.upper h₂.upper (extreme_choice _ _ .upper))

theorem conforms_intersection : (r₁.intersection r₂).Conforms positive m := by
  refine conforms_normalize (bounds_of_choice h₁.lower h₂.lower ?_)
    (bounds_of_choice h₁.upper h₂.upper ?_)
  · exact (pick_choice (extreme_choice _ _ .upper)).imp_right .inl
  · exact (pick_choice (extreme_choice _ _ .lower)).imp_right .inl

theorem conforms_add : (r₁ + r₂).Conforms positive m :=
  conforms_normalize ((computes_add _ _).bounds ⟨.inr h₁.lower, .inr h₂.lower⟩)
    ((computes_add _ _).bounds ⟨.inr h₁.upper, .inr h₂.upper⟩)

theorem conforms_sub : (r₁ - r₂).Conforms positive m :=
  conforms_normalize ((computes_sub _ _).bounds ⟨.inr h₁.lower, .inr h₂.upper⟩)
    ((computes_sub _ _).bounds ⟨.inr h₁.upper, .inr h₂.lower⟩)

end

theorem conforms_neg (h : r.Conforms positive m) : (-r).Conforms positive m :=
  conforms_normalize ((computes_neg _).bounds (.inr h.upper))
    ((computes_neg _).bounds (.inr h.lower))

theorem conforms_zero (ha : a.Bounds positive m .upper) :
    (Range.normalize (int 0) a).Conforms positive m :=
  conforms_normalize (.inr Conforms.int_zero) ha

theorem bounds_sub_one (ha : a.Conforms positive m .upper) : (a - int 1).Bounds positive m .upper :=
  (computes_sub a (int 1)).bounds ⟨.inr ha, .inr conforms_one⟩

theorem conforms_and (h₁ : r₁.Conforms positive m) (h₂ : r₂.Conforms positive m) :
    (r₁.and r₂).Conforms positive m := by
  rw [Range.and]
  split
  next h =>
    simp only [and_eq_true, isSingleValue] at h
    obtain ⟨⟨⟨hsn1, hsn2⟩, hi1⟩, hi2⟩ := h
    obtain ⟨lower1, upper1⟩ := r₁
    obtain ⟨lower2, upper2⟩ := r₂
    cases lower1 with
    | int c =>
      cases lower2 with
      | int d =>
        cases same_of_equals hsn1
        cases same_of_equals hsn2
        exact conforms_normalize (bounds_and c d) (bounds_and c d)
      | _ => cases hi2
    | _ => cases hi1
  next =>
    split
    · apply conforms_zero
      have hmx : (maxInt : Value Instruction).Conforms positive m .upper := rfl
      dsimp only
      repeat' split
      all_goals first
        | exact .inr hmx
        | exact .inr h₁.upper
        | exact .inr h₂.upper
        | exact bounds_of_choice h₁.upper h₂.upper (extreme_choice _ _ .lower)
    · split
      · exact conforms_zero (.inr h₁.upper)
      · split
        · exact conforms_zero (.inr h₂.upper)
        · exact conforms_unbound

theorem conforms_tryComputeRange (h : r.Conforms positive m) :
    (tryComputeRange r).Conforms positive m := by
  rw [tryComputeRange]
  split
  · exact conforms_zero (.inr h.upper)
  · split
    · exact conforms_normalize (.inr h.lower) (.inr Conforms.int_zero)
    · exact conforms_unbound

theorem conforms_modulo (ty : OperandTypes) (h : r.Conforms positive m) :
    (handleInvokeModulo ty (some r)).Conforms positive m := by
  cases ty with
  | integers =>
    rw [handleInvokeModulo]
    split
    · exact conforms_zero (bounds_sub_one h.upper)
    next hr =>
      split
      · exact conforms_zero (bounds_sub_one (conforms_negate h hr))
      · exact conforms_unbound
  | numbers =>
    rw [handleInvokeModulo]
    split
    · exact conforms_zero (.inr h.upper)
    next hr =>
      split
      · exact conforms_zero (.inr (conforms_negate h hr))
      · exact conforms_unbound
  | other => exact conforms_unbound

theorem conforms_remainder (isPositiveInteger : Bool) (ty : OperandTypes)
    (dividend : Option (Range Instruction)) (h : r.Conforms positive m) :
    (visitRemainder isPositiveInteger ty dividend (some r)).Conforms positive m := by
  rw [visitRemainder.eq_def]
  split
  · dsimp only
    split
    · cases ty with
      | integers => exact conforms_zero (bounds_sub_one h.upper)
      | numbers => exact conforms_zero (.inr h.upper)
      | other => exact conforms_unbound
    · exact conforms_unbound
  · exact conforms_unbound

theorem conforms_constrained (operation : RelationalOperation) (h₁ : r₁.Conforms positive m)
    (h₂ : r₂.Conforms positive m) :
    (computeConstrainedRange operation r₁ r₂).Conforms positive m := by
  rw [computeConstrainedRange.eq_def]
  refine conforms_intersection ?_ h₁
  cases operation with
  | less => exact conforms_normalize (.inr rfl) (bounds_sub_one h₂.upper)
  | lessEqual => exact conforms_normalize (.inr rfl) (.inr h₂.upper)
  | greater =>
    refine conforms_normalize ?_ (.inr rfl)
    exact (computes_add _ _).bounds ⟨.inr h₂.lower, .inr conforms_one⟩
  | greaterEqual => exact conforms_normalize (.inr h₂.lower) (.inr rfl)

section
variable (h₁ : r₁.Conforms positive m) (h₂ : r₂.Conforms positive m)
include h₁ h₂

theorem conforms_checkedIndex : (visitBoundsCheck r₁ r₂).range.Conforms positive m := by
  rw [visitBoundsCheck]
  split
  · exact h₁
  · exact conforms_intersection h₁ (conforms_zero (bounds_sub_one h₂.upper))

theorem conforms_checkedLength
    (h : (visitBoundsCheck r₁ r₂).lengthRange = some r) : r.Conforms positive m := by
  rw [visitBoundsCheck] at h
  split at h
  · cases h
  dsimp only at h
  split at h
  · cases h
    refine conforms_normalize ?_ (.inr h₂.upper)
    exact bounds_of_choice h₂.lower h₁.lower (extreme_choice _ _ .upper)
  · cases h

end

/-! ## Loops -/

/-- A bound that replacing markers does not change has none. -/
theorem conforms_of_equals (h : a.Conforms positive true s) (hv : v.Bounds positive false s)
    (hav : (a == v) = true) : a.Conforms positive false s := by
  rcases hv with rfl | hv
  · rw [equals_unknown_of_ne h.ne_unknown] at hav
    cases hav
  · exact h.of_markers (.inr ((same_of_equals hav).hasMarker_eq.trans hv.hasMarker))

theorem bounds_replaceMarkers (ha : a.Conforms positive true s)
    (hv : v.Conforms positive false .lower) (hw : w.Conforms positive false .upper) :
    (a.replaceMarkers v w).Bounds positive false s := by
  induction a generalizing s with
  | marker l p =>
    rw [Value.replaceMarkers]
    cases l with
    | true => rw [ha.2.mp rfl]; exact .inr hv
    | false =>
      have hs : s = .upper := by
        cases s with
        | lower => cases ha.2.mpr rfl
        | upper => rfl
      rw [hs]
      exact .inr hw
  | add l r ihl ihr =>
    rw [Value.replaceMarkers]
    split
    next h =>
      rw [and_eq_true] at h
      exact .inr ⟨conforms_of_equals ha.1 (ihl ha.1) h.1,
        conforms_of_equals ha.2.1 (ihr ha.2.1) h.2, ha.2.2⟩
    next => exact (computes_add _ _).bounds ⟨ihl ha.1, ihr ha.2.1⟩
  | subtract l r ihl ihr =>
    rw [Value.replaceMarkers]
    split
    next h =>
      rw [and_eq_true] at h
      exact .inr ⟨conforms_of_equals ha.1 (ihl ha.1) h.1,
        conforms_of_equals ha.2.1 (ihr ha.2.1) h.2, ha.2.2⟩
    next => exact (computes_sub _ _).bounds ⟨ihl ha.1, ihr ha.2.1⟩
  | negate a ih =>
    rw [Value.replaceMarkers]
    split
    next h => exact .inr ⟨conforms_of_equals ha.1 (ih ha.1) h, ha.2⟩
    next => exact (computes_neg _).bounds (ih ha.1)
  | _ => exact .inr ha

theorem conforms_replaceMarkers (h : r.Conforms positive true)
    (hv : v.Conforms positive false .lower) (hw : w.Conforms positive false .upper) :
    (r.replaceMarkers v w).Conforms positive false := by
  have hl := bounds_replaceMarkers h.lower hv hw
  have hu := bounds_replaceMarkers h.upper hv hw
  rw [Range.replaceMarkers]
  split
  next heq =>
    rw [and_eq_true] at heq
    exact ⟨conforms_of_equals h.lower hl heq.1, conforms_of_equals h.upper hu heq.2⟩
  next => exact conforms_normalize hl hu

theorem conforms_loopPhi (isPositive : Bool) (h₁ : r₁.Conforms positive false)
    (h₂ : r₂.Conforms positive true) : (loopPhi isPositive r₁ r₂).Conforms positive false := by
  rw [loopPhi]
  refine conforms_union h₁ (conforms_replaceMarkers h₂ ?_ ?_)
  · split
    · exact h₁.lower
    · cases isPositive with
      | true => exact Conforms.int_zero
      | false => rfl
  · split
    · exact h₁.upper
    · rfl

theorem conforms_visitPhi {rs : List (Range Instruction)} (h : r.Conforms positive m)
    (hs : ∀ r' ∈ rs, r'.Conforms positive m) : (visitPhi r rs).Conforms positive m := by
  induction rs generalizing r with
  | nil => exact h
  | cons r' rs ih =>
    exact ih (conforms_union h (hs r' (.head _))) fun r'' hr => hs r'' (.tail _ hr)

/-- **The bounds of a range that the analysis builds have the form of bounds.** -/
theorem Built.conforms (h : Built positive m r) : r.Conforms positive m := by
  induction h with
  | unbound => exact conforms_unbound
  | constant h => exact conforms_normalize (.inr h) (.inr h)
  | instruction type i h =>
    cases type with
    | positiveInteger => exact conforms_zero (.inr fun _ => ⟨rfl, h rfl⟩)
    | integer => exact conforms_normalize (.inr fun h => nomatch h) (.inr fun h => nomatch h)
    | other => exact conforms_unbound
  | getLength i h => exact conforms_zero (.inr fun _ => ⟨rfl, h⟩)
  | phi _ _ ih1 ih2 => exact conforms_visitPhi ih1 ih2
  | add _ _ ih1 ih2 => exact conforms_add ih1 ih2
  | subtract _ _ ih1 ih2 => exact conforms_sub ih1 ih2
  | negate _ ih => exact conforms_neg ih
  | bitAnd _ _ ih1 ih2 => exact conforms_and ih1 ih2
  | tryBitAnd _ ih => exact conforms_tryComputeRange ih
  | modulo types _ ih => exact conforms_modulo types ih
  | remainder isPositiveInteger types dividend _ ih =>
    exact conforms_remainder isPositiveInteger types dividend ih
  | constrained operation _ _ ih1 ih2 => exact conforms_constrained operation ih1 ih2
  | checkedIndex _ _ ih1 ih2 => exact conforms_checkedIndex ih1 ih2
  | checkedLength _ _ h ih1 ih2 => exact conforms_checkedLength ih1 ih2 h
  | outside _ ih => exact ⟨ih.lower.of_markers (.inl rfl), ih.upper.of_markers (.inl rfl)⟩
  | marker isPositive =>
    exact conforms_normalize (.inr ⟨rfl, by simp⟩) (.inr ⟨rfl, by simp⟩)
  | loop isPositive _ _ ih1 ih2 => exact conforms_loopPhi isPositive ih1 ih2

/-! ## Comparing ranges -/

namespace RelationalOperation

@[simp]
def Holds : RelationalOperation → ℤ → ℤ → Prop
  | less, x, y => x < y
  | lessEqual, x, y => x ≤ y
  | greater, x, y => y < x
  | greaterEqual, x, y => y ≤ x

theorem holds_negateOperation (operation : RelationalOperation) (x y : ℤ) :
    operation.negateOperation.Holds x y ↔ ¬ operation.Holds x y := by
  cases operation <;> simp [negateOperation]

end RelationalOperation

/-- The value of a variable lies in a range. -/
structure Range.Contains (ρ : Instruction → ℤ) (r : Range Instruction) (x : ℤ) : Prop where
  lower_le : r.lower.Finite → r.lower.eval ρ ≤ x
  le_upper : r.upper.Finite → x ≤ r.upper.eval ρ

/-- Nothing is known to be below an unknown value. -/
theorem min_unknown (ha : a.Sided ρ .upper) (hm : a.magnitude < 2 ^ 53) :
    (a.min unknown == a) = false := by
  rw [eq_false_iff]
  intro h
  rcases extreme_first .lower (equals_unknown_of_sided ha) h with h | ⟨-, -, h⟩
  · cases h with
    | same h => exact absurd ((equals_unknown_of_sided ha).symm.trans h) nofun
    | infinite => cases ha
    | sub hn =>
      -- The difference is unknown or infinite.
      rcases (computes_sub a unknown).exact ⟨ha, .inl rfl⟩ hm with hd | hd
      · rw [hd] at hn
        cases hn
      · exact (hd.finite_iff.mp ((Sided.sign .lower hd.sided hn).2 rfl)).2
  · rw [(computes_sub unknown a).sub_unknown] at h
    cases h

section

variable {x y : ℤ} (hρ : ∀ i, positive i → 0 ≤ ρ i) (h₁ : r₁.Conforms positive false)
  (hx : r₁.Contains ρ x)
include hρ h₁ hx

omit [DecidableEq Instruction] in
theorem nonneg_of_isPositive (h : r₁.isPositive = true) : 0 ≤ x := by
  obtain ⟨hn, hf⟩ := Sided.sign .upper (h₁.lower.sided hρ) h
  exact (hn (hf rfl)).trans (hx.lower_le (hf rfl))

omit [DecidableEq Instruction] in
theorem neg_of_isNegative (h : r₁.isNegative = true) : x < 0 := by
  have hf := (Sided.sign .lower (h₁.upper.sided hρ) h).2 rfl
  exact (hx.le_upper hf).trans_lt ((Conforms.strict hρ).1 h₁.upper h)

/-- A range with one value. -/
theorem eq_of_isSingleValue (h : r₁.isSingleValue = true) :
    r₁.lower.Finite ∧ x = r₁.lower.eval ρ := by
  obtain ⟨hl, hu, heq⟩ := le_of_equals (h₁.lower.sided hρ) (h₁.upper.sided hρ) h
  have := hx.lower_le hl
  have := hx.le_upper hu
  exact ⟨hl, by omega⟩

variable (h₂ : r₂.Conforms positive false) (hy : r₂.Contains ρ y)
include h₂ hy

theorem eq_iff_of_visitRelational {c : Bool} (h : visitRelational none r₁ r₂ = some c) :
    x = y ↔ c = true := by
  rw [visitRelational, handleEqualityCheck] at h
  split at h
  next hsm =>
    cases h
    simp only [and_eq_true] at hsm
    obtain ⟨⟨hsn1, hsn2⟩, heq⟩ := hsm
    obtain ⟨hl, -⟩ := and_eq_true_iff.mp heq
    refine iff_of_true ?_ rfl
    rw [(eq_of_isSingleValue hρ h₁ hx hsn1).2, (eq_of_isSingleValue hρ h₂ hy hsn2).2]
    exact ((same_of_equals hl).eval_eq).symm
  next => cases h

section

variable (hm : Unrounded r₁.upper r₂.lower)
include hm

theorem le_of_le (h : r₁.le r₂ = true) : x ≤ y := by
  obtain ⟨hf1, hf2, hle⟩ := extreme_le .lower (h₁.upper.sided hρ) (h₂.lower.sided hρ) hm h
  exact (hx.le_upper hf1).trans (hle.trans (hy.lower_le hf2))

/-- **A range that is below another one**: the comparison is strict. -/
theorem lt_of_lt (h : r₁.lt r₂ = true) : x < y := by
  rw [Range.lt, and_eq_true] at h
  obtain ⟨hne, hmn⟩ := h
  obtain ⟨hf1, hf2, -⟩ := extreme_le .lower (h₁.upper.sided hρ) (h₂.lower.sided hρ) hm hmn
  have hlt := min_lower_strict hρ h₁.upper h₂.lower hm hmn
    (by simpa only [bne, not_eq_true'] using hne)
  exact (hx.le_upper hf1).trans_lt (hlt.trans_le (hy.lower_le hf2))

end

section

variable (hm : Unrounded r₁.lower r₂.upper)
include hm

omit hx in
/-- The lower bound of a range that is not below another one. -/
theorem lower_of_ge (h : r₁.ge r₂ = true) : r₁.lower.Finite ∧ y ≤ r₁.lower.eval ρ := by
  obtain ⟨hf1, hf2, hle⟩ := extreme_le .upper (h₁.lower.sided hρ) (h₂.upper.sided hρ) hm h
  exact ⟨hf1, (hy.le_upper hf2).trans hle⟩

theorem ge_of_ge (h : r₁.ge r₂ = true) : y ≤ x := by
  obtain ⟨hf, hle⟩ := lower_of_ge hρ h₁ h₂ hy hm h
  exact hle.trans (hx.lower_le hf)

/-- A range that is above another one: bounds that differ as symbolic values may have the same
value. -/
theorem gt_of_gt (h : r₁.gt r₂ = true) (hne : r₁.lower.eval ρ ≠ y) : y < x := by
  rw [Range.gt, and_eq_true] at h
  obtain ⟨hf, hle⟩ := lower_of_ge hρ h₁ h₂ hy hm h.2
  exact (lt_of_le_of_ne hle hne.symm).trans_le (hx.lower_le hf)

end

section

variable (hb : Unrounded r₁.upper r₂.lower) (ha : Unrounded r₁.lower r₂.upper)
  (hne : r₁.gt r₂ = true → r₁.lower.eval ρ ≠ y)
include hb ha hne

variable {operation : RelationalOperation}

/-- A comparison of ranges. A range that is above another one must not begin with its value. -/
theorem holds_of_apply
    (h : applyRelationalOperation operation r₁ r₂ = true) : operation.Holds x y := by
  cases operation with
  | less => exact lt_of_lt hρ h₁ hx h₂ hy hb h
  | lessEqual => exact le_of_le hρ h₁ hx h₂ hy hb h
  | greater => exact gt_of_gt hρ h₁ hx h₂ hy ha h (hne h)
  | greaterEqual => exact ge_of_ge hρ h₁ hx h₂ hy ha h

theorem holds_iff_of_visitRelational {c : Bool}
    (h : visitRelational (some operation) r₁ r₂ = some c) : operation.Holds x y ↔ c = true := by
  rw [visitRelational] at h
  split at h
  next hap =>
    cases h
    exact iff_of_true (holds_of_apply hρ h₁ hx h₂ hy hb ha hne hap) rfl
  next =>
    split at h
    next hap =>
      cases h
      have := holds_of_apply hρ h₁ hx h₂ hy hb ha hne hap
      exact iff_of_false ((RelationalOperation.holds_negateOperation _ _ _).mp this) Bool.false_ne_true
    next => cases h

end

end

omit [DecidableEq Instruction] in
/-- The lower bound of a range is a value of it, if there is one. -/
theorem Range.Contains.lower {x : ℤ} (h : r.Contains ρ x) (hf : r.lower.Finite) :
    r.Contains ρ (r.lower.eval ρ) :=
  ⟨fun _ => le_rfl, fun hu => (h.lower_le hf).trans (h.le_upper hu)⟩

omit [DecidableEq Instruction] in
/-- If all values of a range are below a number, so is its upper bound. -/
theorem Range.Contains.upper_lt {x n : ℤ} (h : r.Contains ρ x)
    (hlt : ∀ i, r.Contains ρ i → i < n) : r.upper.Finite ∧ r.upper.eval ρ < n := by
  have hf : r.upper.Finite := by
    by_contra hf
    have := hlt (Max.max x n)
      ⟨fun hl => (h.lower_le hl).trans (le_max_left _ _), fun hu => absurd hu hf⟩
    exact absurd (le_max_right x n) (not_le.mpr this)
  exact ⟨hf, hlt _ ⟨fun hl => (h.lower_le hl).trans (h.le_upper hf), fun _ => le_rfl⟩⟩

/-! ## The decisions -/

/-- The upper bound of an index is found to be below the upper bound of the length. -/
def belowUpper (index length : Range Instruction) : Bool :=
  length.upper - int 1 != maxInt && index.upper.min (length.upper - int 1) == index.upper

/-- Nothing is rounded in the decisions for a bounds check. -/
structure UnroundedCheck (index length : Range Instruction) : Prop where
  below : Unrounded index.upper length.lower
  above : Unrounded length.upper index.lower
  belowUpper : index.upper.magnitude + length.upper.magnitude + 1 < 2 ^ 53

/-- The mark of a bounds check is right for an index and a length. -/
structure CheckRight (index length : Range Instruction) (i n : ℤ) : Prop where
  alwaysTrue : (visitBoundsCheck index length).staticChecks = .alwaysTrue → 0 ≤ i ∧ i < n
  alwaysFalse : (visitBoundsCheck index length).staticChecks = .alwaysFalse → i < 0 ∨ n ≤ i
  alwaysAboveZero : (visitBoundsCheck index length).staticChecks = .alwaysAboveZero → 0 ≤ i
  alwaysBelowLength : (visitBoundsCheck index length).staticChecks = .alwaysBelowLength → i < n

/-- A comparison that is replaced by a constant has this truth value. -/
structure RelationRight (left right : Range Instruction) (x y : ℤ) : Prop where
  relational : ∀ operation c, visitRelational (some operation) left right = some c →
    (operation.Holds x y ↔ c = true)
  identity : ∀ c, visitRelational none left right = some c → (x = y ↔ c = true)

/-- Why a bounds check has its mark. -/
theorem visitBoundsCheck_cases (r₁ r₂ : Range Instruction) :
    ((visitBoundsCheck r₁ r₂).staticChecks = .alwaysTrue →
      r₁.isPositive = true ∧ belowLength r₁ r₂ = true) ∧
    ((visitBoundsCheck r₁ r₂).staticChecks = .alwaysAboveZero → r₁.isPositive = true) ∧
    ((visitBoundsCheck r₁ r₂).staticChecks = .alwaysBelowLength → belowLength r₁ r₂ = true) ∧
    ((visitBoundsCheck r₁ r₂).staticChecks = .alwaysFalse →
      r₁.isNegative = true ∨ r₂.lt r₁ = true) ∧
    (belowLength r₁ r₂ = true → (visitBoundsCheck r₁ r₂).staticChecks = .alwaysTrue ∨
      (visitBoundsCheck r₁ r₂).staticChecks = .alwaysBelowLength ∨
      r₁.isNegative = true ∨ r₂.lt r₁ = true) := by
  rw [visitBoundsCheck]
  grind

section

variable {index length : Range Instruction} {i n : ℤ} (hρ : ∀ i, positive i → 0 ≤ ρ i)
  (h₁ : index.Conforms positive false) (h₂ : length.Conforms positive false)
  (hm : UnroundedCheck index length)
include hρ h₁ h₂ hm

theorem upper_lt_of_belowUpper (h : belowUpper index length = true) (hf : length.upper.Finite) :
    index.upper.Finite ∧ index.upper.eval ρ < length.upper.eval ρ := by
  have hmg := hm.belowUpper
  have hu := h₁.upper.sided hρ
  obtain ⟨-, hmn⟩ := and_eq_true_iff.mp h
  rcases (computes_sub length.upper (int 1)).exact
    ⟨h₂.upper.sided hρ, .inr trivial⟩ (by simp only [Call.magnitude, Value.magnitude]; omega)
    with hd | hd
  · rw [hd, min_unknown hu (by omega)] at hmn
    cases hmn
  have hfd := hd.finite_iff.mpr ⟨hf, trivial⟩
  have hle := hd.magnitude_le
  simp only [Call.magnitude, Value.magnitude] at hle
  obtain ⟨hfi, -, hle⟩ := extreme_le .lower hu (Sided.of_finite hd.sided hfd .lower)
    (.inr (by omega)) hmn
  rw [Bound.le, hd.eval_eq hfd, Call.eval, eval] at hle
  exact ⟨hfi, by omega⟩

variable (hn : length.Contains ρ n)
include hn

/-- **A bounds check has the right mark** if the length is above the upper bound of the index
wherever this is found to be below the upper bound of the length. -/
theorem checkRight_of_upper_lt (hi : index.Contains ρ i)
    (h : belowUpper index length = true → index.upper.Finite ∧ index.upper.eval ρ < n) :
    CheckRight index length i n := by
  have hbelow : belowLength index length = true → i < n := by
    intro hb
    rcases or_eq_true_iff.mp hb with hb | hb
    · obtain ⟨hf, hlt⟩ := h hb
      exact (hi.le_upper hf).trans_lt hlt
    · exact lt_of_lt hρ h₁ hi h₂ hn hm.below hb
  obtain ⟨ht, ha, hb, hf, -⟩ := visitBoundsCheck_cases index length
  constructor
  case alwaysTrue =>
    intro h
    obtain ⟨hp, hb⟩ := ht h
    exact ⟨nonneg_of_isPositive hρ h₁ hi hp, hbelow hb⟩
  case alwaysFalse =>
    intro h
    rcases hf h with h | h
    · exact .inl (neg_of_isNegative hρ h₁ hi h)
    · exact .inr (lt_of_lt hρ h₂ hn h₁ hi hm.above h).le
  case alwaysAboveZero => exact fun h => nonneg_of_isPositive hρ h₁ hi (ha h)
  case alwaysBelowLength => exact fun h => hbelow (hb h)

/-- **The other way round**: a length that is not above the upper bound of the index is not above
all indices. -/
theorem upper_lt_of_checkRight (h0 : 0 ≤ n) (hi : index.Contains ρ i)
    (h : ∀ i, index.Contains ρ i → CheckRight index length i n)
    (hb : belowUpper index length = true) : index.upper.Finite ∧ index.upper.eval ρ < n := by
  obtain ⟨-, -, -, -, hmark⟩ := visitBoundsCheck_cases index length
  apply hi.upper_lt
  rcases hmark (or_eq_true_iff.mpr (.inl hb)) with ht | ht | ht | ht
  · exact fun i hi => ((h i hi).alwaysTrue ht).2
  · exact fun i hi => (h i hi).alwaysBelowLength ht
  · exact fun i hi => (neg_of_isNegative hρ h₁ hi ht).trans_le h0
  · -- a range that is above that of the length has no upper bound below the one of the length
    have hlt := lt_of_lt hρ h₂ hn h₁ hi hm.above ht
    rw [Range.lt, and_eq_true] at ht
    obtain ⟨hfu, hfl, hle⟩ :=
      extreme_le .lower (h₂.upper.sided hρ) (h₁.lower.sided hρ) hm.above ht.2
    obtain ⟨hf, hlt'⟩ := upper_lt_of_belowUpper hρ h₁ h₂ hm hb hfu
    have := hi.lower_le hfl
    have := hi.le_upper hf
    rw [Bound.le] at hle
    omega

end

/-- The index `i` where `i < a.length` holds. -/
def checkedRange : Range ℕ :=
  (visitConditionalBranch .less (visitInstruction .positiveInteger 1) (visitGetLength 0)).trueLeft

/-- The length where `a.length <= 10` holds. -/
def boundedLength : Range ℕ :=
  (visitConditionalBranch .lessEqual (visitGetLength 0) (visitConstant 10)).trueLeft

/-- `0 - x - y`. -/
def negativeSum (x y : ℕ) : Range ℕ :=
  visitConstant 0 - visitInstruction .integer x - visitInstruction .integer y

end Compiler.Ssa
