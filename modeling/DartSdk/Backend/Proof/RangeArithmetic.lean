import DartSdk.Backend.Proof.RangeBits
import Mathlib.Algebra.Order.Ring.Abs

/-!
# Arithmetic on constant ranges is sound

* `addRange_sound`, `subRange_sound`, `mulRange_sound`, `truncDivRange_sound`, `modRange_sound`:
  one lemma for each operation.
* `binaryOp_spec`: the range of an operation on constant ranges contains every result, and is not
  empty.
-/

namespace Backend.Proof

open Loops RangeBoundary FlowGraph TwosComplement Option Bool Int

variable {v : DefId → Int} {x y z : Int}

section
variable {g : FlowGraph} {n : Nat} {l u l₁ u₁ l₂ u₂ : Int} {leftLength : Option DefId}

/-! ## Addition and subtraction -/

/-- The boundary is infinite, or its value is a 64-bit integer that bounds every result on a
side. -/
def BoundsAll (side : Side) (P : Int → Int → Prop) (v : DefId → Int) (f : Int → Int → Int)
    (b : RangeBoundary) : Prop :=
  b.isInfinity = true ∨
    ∃ c, value v b = some c ∧ isInt64 c = true ∧ ∀ x y, P x y → side.Bounds c (f x y)

/-- An operation that is exact up to wrapping around needs a bound on each side. -/
theorem sound_of_boundsAll {op : Token} {f : Int → Int → Int} {b : Boundaries}
    (hop : ∀ x y, op.eval x y = some ((f x y).bmod (2 ^ 64)))
    (hex : ∃ x y, Operands v leftLength l₁ u₁ l₂ u₂ x y)
    (hlo : BoundsAll .lower (Operands v leftLength l₁ u₁ l₂ u₂) v f b.1)
    (hhi : BoundsAll .upper (Operands v leftLength l₁ u₁ l₂ u₂) v f b.2) :
    Sound v leftLength op l₁ u₁ l₂ u₂ b := by
  rcases hlo with hlo | ⟨lo, hlo, hlo64, hl⟩
  · exact sound_of_isInfinity (.inl hlo)
  rcases hhi with hhi | ⟨hi, hhi, hhi64, hu⟩
  · exact sound_of_isInfinity (.inr hhi)
  constructor
  · obtain ⟨x, y, ho⟩ := hex
    exact ⟨f x y, isInt64_between hlo64 hhi64 (hl x y ho) (hu x y ho),
      .inr (.inr ⟨lo, hi, hlo, hhi, hl x y ho, hu x y ho⟩)⟩
  intro x y z ho he
  rw [hop, bmod_of_isInt64 (isInt64_between hlo64 hhi64 (hl x y ho) (hu x y ho))] at he
  cases he
  exact .inr (.inr ⟨lo, hi, hlo, hhi, hl x y ho, hu x y ho⟩)

/-- A symbolic boundary with a valid offset cannot wrap around. -/
theorem isInt64_validOffset {t : Target} {off : Int} (hx : t.isSmi x = true)
    (h : isValidOffsetForSymbolicRangeBoundary t off = true) : isInt64 (x + off) = true := by
  simp only [Target.isSmi, and_eq_true, decide_eq_true_eq] at hx
  simp only [isValidOffsetForSymbolicRangeBoundary, not_eq_true', or_eq_false_iff,
    decide_eq_false_iff_not] at h
  have hm : kMinInt64 = -2 ^ 63 := rfl
  have hmx : kMaxInt64 = 2 ^ 63 - 1 := rfl
  rw [isInt64_iff]
  omega

/-- The left operand's boundary is a symbol only for an array length. -/
theorem leftBoundary_cases (a : Int) :
    (∃ c, g.leftBoundary leftLength (constant a) = constant c) ∨
      ∃ d ∈ leftLength, (g.definition d).asSmiConstant = none ∧
        g.leftBoundary leftLength (constant a) = symbol d 0 := by
  cases leftLength with
  | none => exact .inl ⟨a, rfl⟩
  | some d =>
    rw [leftBoundary, fromDefinition]
    cases hd : (g.definition d).asSmiConstant with
    | none => exact .inr ⟨d, rfl, hd, rfl⟩
    | some c => exact .inl ⟨c + 0, rfl⟩

section
variable {side : Side} {f : Int → Int → Int}

section
variable (h₁ : IsRange l₁ u₁) (h₂ : IsRange l₂ u₂)
include h₁ h₂

/-- Operands exist; the left one is the array length if there is one. -/
theorem exists_operands (hlength : ∀ d ∈ leftLength, l₁ ≤ v d ∧ v d ≤ u₁) :
    ∃ x y, Operands v leftLength l₁ u₁ l₂ u₂ x y := by
  cases leftLength with
  | none => exact ⟨l₁, l₂, le_rfl, h₁.le, le_rfl, h₂.le, fun d hd => by cases hd⟩
  | some d =>
    obtain ⟨hl, hu⟩ := hlength d rfl
    exact ⟨v d, l₂, hl, hu, le_rfl, h₂.le, fun e he => by cases he; rfl⟩

section
variable (hlength : ∀ d ∈ leftLength, g.target.isSmi (v d) = true ∧ l₁ ≤ v d ∧ v d ≤ u₁)
include hlength

variable (l₂ u₂) in
omit h₁ h₂ in
/-- A boundary of a sum or difference: an array length with an offset, or a constant. -/
theorem boundary_spec (side : Side) (symbolic : RangeBoundary → Option RangeBoundary) (a : Int)
    (inf : RangeBoundary) {k c off : Int} {ov : Bool} (hi : inf.isInfinity = true)
    (hc : ∀ c, symbolic (constant c) = none)
    (hd : ∀ d, symbolic (symbol d 0) = if ov then none
      else if !isValidOffsetForSymbolicRangeBoundary g.target off then none
      else some (g.fromDefinition d off))
    (hl : ∀ x y, Operands v leftLength l₁ u₁ l₂ u₂ x y → side.Bounds (x + off) (f x y))
    (hcn : ∀ x y, Operands v leftLength l₁ u₁ l₂ u₂ x y → side.Bounds (f k c) (f x y)) :
    ∃ b, (symbolic (g.leftBoundary leftLength (constant a))).or
        (if !isInt64 (f k c) then some inf else some (constant (f k c))) = some b ∧
      BoundsAll side (Operands v leftLength l₁ u₁ l₂ u₂) v f b := by
  have hex : ∃ b, (if !isInt64 (f k c) then some inf else some (constant (f k c))) = some b ∧
      BoundsAll side (Operands v leftLength l₁ u₁ l₂ u₂) v f b := by
    cases h64 : isInt64 (f k c) with
    | true => exact ⟨_, rfl, .inr ⟨_, rfl, h64, hcn⟩⟩
    | false => exact ⟨_, rfl, .inl hi⟩
  generalize (if !isInt64 (f k c) then some inf else some (constant (f k c))) = r at hex ⊢
  rcases @leftBoundary_cases g leftLength a with ⟨c, hb⟩ | ⟨d, hm, hsc, hb⟩
  · rwa [hb, hc]
  rw [hb, hd, fromDefinition, hsc]
  split_ifs with h1 h2
  · exact hex
  · exact hex
  refine ⟨_, rfl, .inr ⟨_, rfl, isInt64_validOffset (hlength d hm).1 (by simpa using h2), ?_⟩⟩
  intro x y ho
  rw [ho.length d hm]
  exact hl x y ho

theorem addRange_sound :
    ∃ b, g.addRange (n + 1) (constantRange l₁ u₁) (constantRange l₂ u₂) leftLength = some b ∧
      Sound v leftLength .kADD l₁ u₁ l₂ u₂ b := by
  have hd : ∀ {c} d, g.symbolicAdd (symbol d 0) (constant c) = _ := fun d => by
    rw [symbolicAdd, symbolicAddConstant, Int.zero_add]
  obtain ⟨min, hm, hlo⟩ := boundary_spec l₂ u₂ hlength .lower (g.symbolicAdd · (constant l₂)) l₁
    negativeInfinity rfl (fun _ => rfl) hd (fun x y ho => Int.add_le_add_left ho.right_lower x)
    fun x y ho => Int.add_le_add ho.left_lower ho.right_lower
  obtain ⟨max, hmx, hhi⟩ := boundary_spec l₂ u₂ hlength .upper (g.symbolicAdd · (constant u₂)) u₁
    positiveInfinity rfl (fun _ => rfl) hd (fun x y ho => Int.add_le_add_left ho.right_upper x)
    (k := u₂) (c := u₁) fun x y ho => by
      have := ho.left_upper
      have := ho.right_upper
      change x + y ≤ u₂ + u₁
      omega
  refine ⟨(min, max), ?_, sound_of_boundsAll (fun x y => rfl)
    (exists_operands h₁ h₂ fun d hd => (hlength d hd).2) hlo hhi⟩
  rw [addRange]
  refine bind_eq_some_iff.2 ⟨min, hm, ?_⟩
  exact bind_eq_some_iff.2 ⟨max, hmx, rfl⟩

theorem subRange_sound :
    ∃ b, g.subRange (n + 1) (constantRange l₁ u₁) (constantRange l₂ u₂) leftLength = some b ∧
      Sound v leftLength .kSUB l₁ u₁ l₂ u₂ b := by
  have hd : ∀ {c} d, g.symbolicSub (symbol d 0) (constant c) = _ := fun d => by
    rw [symbolicSub, Int.zero_sub]
  obtain ⟨min, hm, hlo⟩ := boundary_spec l₂ u₂ hlength .lower (g.symbolicSub · (constant u₂)) l₁
    negativeInfinity rfl (fun _ => rfl) hd (fun x y ho => Int.sub_le_sub_left ho.right_upper x)
    fun x y ho => Int.sub_le_sub ho.left_lower ho.right_upper
  obtain ⟨max, hmx, hhi⟩ := boundary_spec l₂ u₂ hlength .upper (g.symbolicSub · (constant l₂)) u₁
    positiveInfinity rfl (fun _ => rfl) hd (fun x y ho => Int.sub_le_sub_left ho.right_lower x)
    fun x y ho => Int.sub_le_sub ho.left_upper ho.right_lower
  refine ⟨(min, max), ?_, sound_of_boundsAll (fun x y => rfl)
    (exists_operands h₁ h₂ fun d hd => (hlength d hd).2) hlo hhi⟩
  rw [subRange]
  refine bind_eq_some_iff.2 ⟨min, hm, ?_⟩
  exact bind_eq_some_iff.2 ⟨max, hmx, rfl⟩

end

end

end

/-! ## Multiplication and division -/

theorem absWithSaturation_eq (h : isInt64 x = true) :
    Utils.absWithSaturation x = if x = -2 ^ 63 then 2 ^ 63 - 1 else |x| := by
  rw [isInt64_iff] at h
  rw [Utils.absWithSaturation]
  change (if x < 0 then if x = -2 ^ 63 then 2 ^ 63 - 1 else -x else x) = _
  split_ifs with h1 h2 h2
  · rfl
  · rw [abs_of_neg h1]
  · omega
  · rw [abs_of_nonneg (by omega)]

/-- The greatest and the least absolute value of a range, up to saturation. -/
theorem constantAbs_constant (h : IsRange l u) :
    g.constantAbsMax (n + 1) (constantRange l u) =
        some (max (Utils.absWithSaturation l) (Utils.absWithSaturation u)) ∧
      g.constantAbsMin (n + 1) (constantRange l u) =
        some (min (Utils.absWithSaturation l) (Utils.absWithSaturation u)) := by
  rw [constantAbsMax, constantAbsMin, constantMin_constant h, constantMax_constant h]
  exact ⟨rfl, rfl⟩

/-- On one side of zero the least absolute value is at a boundary. -/
theorem absMin_le_abs (hl : l ≤ x) (hu : x ≤ u) (hsg : 0 ≤ l ∨ u ≤ 0) : min |l| |u| ≤ |x| := by
  rcases hsg with h | h
  · rw [abs_of_nonneg h, abs_of_nonneg (h.trans hl)]
    exact (min_le_left _ _).trans hl
  · rw [abs_of_nonpos h, abs_of_nonpos (hu.trans h)]
    exact (min_le_right _ _).trans (neg_le_neg hu)

theorem onlyGreaterThanOrEqualTo_constant (c : Int) :
    g.onlyGreaterThanOrEqualTo (n + 1) (constantRange l u) c = some (decide (c ≤ l)) := rfl

theorem onlyLessThanOrEqualTo_constant (c : Int) :
    g.onlyLessThanOrEqualTo (n + 1) (constantRange l u) c = some (decide (u ≤ c)) := rfl

/-- A boundary whose saturated absolute value is small is not the least integer. -/
theorem absWithSaturation_small {k : Nat} (hk : k ≤ 62) (h : isInt64 x = true)
    (hx : Utils.absWithSaturation x ≤ 2 ^ k) : Utils.absWithSaturation x = |x| := by
  have hp : (2 : Int) ^ k ≤ 2 ^ 62 := pow_le_pow_right₀ (by decide) hk
  rw [absWithSaturation_eq h] at hx ⊢
  split_ifs at hx ⊢ with hm
  · omega
  · rfl

/-- The product of the greatest absolute values bounds every product. -/
theorem abs_mul_le (ho : Operands v leftLength l₁ u₁ l₂ u₂ x y) :
    |x * y| ≤ max |l₁| |u₁| * max |l₂| |u₂| := by
  rw [abs_mul]
  exact mul_le_mul (abs_le_max_abs_abs ho.left_lower ho.left_upper)
    (abs_le_max_abs_abs ho.right_lower ho.right_upper) (abs_nonneg y)
    ((abs_nonneg l₁).trans (le_max_left _ _))

/-- If the operands have the same sign, the product of the least absolute values bounds every
product from below. -/
theorem le_mul_of_sameSign (ho : Operands v leftLength l₁ u₁ l₂ u₂ x y)
    (hsg : (0 ≤ l₁ ∧ 0 ≤ l₂) ∨ (u₁ ≤ 0 ∧ u₂ ≤ 0)) : min |l₁| |u₁| * min |l₂| |u₂| ≤ x * y := by
  have hxy : 0 ≤ x * y := by
    rcases hsg with ⟨h1, h2⟩ | ⟨h1, h2⟩
    · exact mul_nonneg (h1.trans ho.left_lower) (h2.trans ho.right_lower)
    · exact mul_nonneg_of_nonpos_of_nonpos (ho.left_upper.trans h1) (ho.right_upper.trans h2)
  rw [← abs_of_nonneg hxy, abs_mul]
  exact mul_le_mul (absMin_le_abs ho.left_lower ho.left_upper (hsg.imp And.left And.left))
    (absMin_le_abs ho.right_lower ho.right_upper (hsg.imp And.right And.right))
    (le_min (abs_nonneg _) (abs_nonneg _)) (abs_nonneg x)

theorem mulRange_sound (hk : g.target.kSmiBits ≤ 62) (h₁ : IsRange l₁ u₁) (h₂ : IsRange l₂ u₂) :
    ∃ b, g.mulRange (n + 1) (constantRange l₁ u₁) (constantRange l₂ u₂) = some b ∧
      Sound v leftLength .kMUL l₁ u₁ l₂ u₂ b := by
  simp only [mulRange, onlyPositiveOrZero, onlyNegativeOrZero, onlyGreaterThanOrEqualTo_constant,
    onlyLessThanOrEqualTo_constant, constantAbs_constant h₁, constantAbs_constant h₂,
    some_bind, pure_def]
  split
  case isFalse =>
    split_ifs
    · exact ⟨_, rfl, sound_of_isInfinity (.inr rfl)⟩
    · exact ⟨_, rfl, sound_of_isInfinity (.inr rfl)⟩
  case isTrue hgr =>
    obtain ⟨hl, hr, hm⟩ := hgr
    rw [Target.kSmiMin, Int.neg_neg] at hl hr
    have hl1 := absWithSaturation_small hk h₁.lower (le_of_max_le_left hl)
    have hu1 := absWithSaturation_small hk h₁.upper (le_of_max_le_right hl)
    have hl2 := absWithSaturation_small hk h₂.lower (le_of_max_le_left hr)
    have hu2 := absWithSaturation_small hk h₂.upper (le_of_max_le_right hr)
    rw [hl1, hu1, hl2, hu2] at hm
    rw [hl1, hu1, hl2, hu2]
    have hmx : 0 ≤ max |l₁| |u₁| * max |l₂| |u₂| :=
      mul_nonneg (le_max_of_le_left (abs_nonneg _)) (le_max_of_le_left (abs_nonneg _))
    have h64 : max |l₁| |u₁| * max |l₂| |u₂| ≤ 2 ^ 63 - 1 := by
      by_cases h0 : max |l₁| |u₁| = 0
      · rw [h0, Int.zero_mul]
        decide
      · exact (mul_le_mul_of_nonneg_left (hm.resolve_left h0)
          (le_max_of_le_left (abs_nonneg _))).trans (mul_ediv_self_le h0)
    have hex : ∀ {x y z}, Operands v leftLength l₁ u₁ l₂ u₂ x y →
        Token.eval .kMUL x y = some z → z = x * y := by
      intro x y z ho he
      obtain ⟨h1, h2⟩ := abs_le.1 (abs_mul_le ho)
      cases he
      exact bmod_of_isInt64 (isInt64_iff.2 ⟨by omega, by omega⟩)
    obtain ⟨x0, y0, ho⟩ : ∃ x y, Operands v none l₁ u₁ l₂ u₂ x y :=
      exists_operands h₁ h₂ fun d hd => by cases hd
    split_ifs with hsg
    · simp only [or_eq_true, and_eq_true, decide_eq_true_eq] at hsg
      refine ⟨_, rfl, ⟨max |l₁| |u₁| * max |l₂| |u₂|, isInt64_iff.2 ⟨by omega, h64⟩, ?_⟩, ?_⟩
      · exact encloses_constant ((le_mul_of_sameSign ho hsg).trans (le_of_abs_le (abs_mul_le ho)))
          le_rfl
      · intro x y z ho he
        rw [hex ho he]
        exact encloses_constant (le_mul_of_sameSign ho hsg) (le_of_abs_le (abs_mul_le ho))
    · refine ⟨_, rfl, ⟨max |l₁| |u₁| * max |l₂| |u₂|, isInt64_iff.2 ⟨by omega, h64⟩, ?_⟩, ?_⟩
      · exact encloses_constant (by omega) le_rfl
      · intro x y z ho he
        rw [hex ho he]
        exact encloses_constant (abs_le.1 (abs_mul_le ho)).1 (abs_le.1 (abs_mul_le ho)).2

theorem ediv_le_ediv_of_le {a b c d : Int} (ha : 0 ≤ a) (hab : a ≤ b) (hd : 0 < d) (hdc : d ≤ c) :
    a / c ≤ b / d := by
  rw [Int.le_ediv_iff_mul_le hd]
  calc a / c * d ≤ a / c * c := mul_le_mul_of_nonneg_left hdc (ediv_nonneg ha (by omega))
    _ ≤ a := Int.ediv_mul_le a (by omega)
    _ ≤ b := hab

theorem truncDivRange_sound (h₁ : IsRange l₁ u₁) (h₂ : IsRange l₂ u₂) :
    ∃ b, g.truncDivRange (n + 1) (constantRange l₁ u₁) (constantRange l₂ u₂) = some b ∧
      Sound v leftLength .kTRUNCDIV l₁ u₁ l₂ u₂ b := by
  have hle1 := h₁.le
  have hle2 := h₂.le
  have hu := isInt64_iff.1 h₁.upper
  simp only [truncDivRange, onlyGreaterThanOrEqualTo_constant, constantAbs_constant h₁,
    constantAbs_constant h₂, some_bind, pure_def]
  split_ifs with hp
  · simp only [and_eq_true, decide_eq_true_eq] at hp
    have hab : ∀ {c : Int}, 0 ≤ c → Utils.absWithSaturation c = c := by
      intro c hc
      rw [Utils.absWithSaturation, if_neg (by omega)]
    rw [hab (by omega), hab (by omega), hab (by omega), hab (by omega), min_eq_left hle1,
      max_eq_right hle1, min_eq_left hle2, max_eq_right hle2]
    have hbt : ∀ {x y}, l₁ ≤ x → x ≤ u₁ → l₂ ≤ y → y ≤ u₂ →
        l₁.tdiv u₂ ≤ x.tdiv y ∧ x.tdiv y ≤ u₁.tdiv l₂ := by
      intro x y hx1 hx2 hy1 hy2
      rw [tdiv_eq_ediv_of_nonneg (by omega), tdiv_eq_ediv_of_nonneg (by omega),
        tdiv_eq_ediv_of_nonneg (by omega)]
      exact ⟨ediv_le_ediv_of_le hp.1 hx1 (by omega) hy2,
        ediv_le_ediv_of_le (by omega) hx2 (by omega) hy1⟩
    have h64 : ∀ {x y}, l₁ ≤ x → x ≤ u₁ → l₂ ≤ y → y ≤ u₂ → isInt64 (x.tdiv y) = true := by
      intro x y hx1 hx2 hy1 hy2
      have := ediv_nonneg (a := x) (b := y) (by omega) (by omega)
      have := ediv_le_self (a := x) y (by omega)
      rw [tdiv_eq_ediv_of_nonneg (by omega), isInt64_iff]
      omega
    refine ⟨_, rfl, ?_, ?_⟩
    · obtain ⟨h1, h2⟩ := hbt le_rfl hle1 le_rfl hle2
      exact ⟨_, h64 le_rfl hle1 le_rfl hle2, encloses_constant h1 h2⟩
    intro x y z ho he
    obtain ⟨h1, h2⟩ := hbt ho.left_lower ho.left_upper ho.right_lower ho.right_upper
    have hy := ho.right_lower
    rw [Token.eval, if_neg (by omega), bmod_of_isInt64
      (h64 ho.left_lower ho.left_upper ho.right_lower ho.right_upper)] at he
    cases he
    exact encloses_constant h1 h2
  · exact ⟨_, rfl, sound_of_isInfinity (.inr rfl)⟩

theorem modRange_sound (h₂ : IsRange l₂ u₂) :
    ∃ b, g.modRange (n + 1) (constantRange l₂ u₂) = some b ∧
      Sound v leftLength .kMOD l₁ u₁ l₂ u₂ b := by
  refine ⟨_, by rw [modRange, constantMin_constant h₂, (constantAbs_constant h₂).1]; rfl, ?_⟩
  have hl := isInt64_iff.1 h₂.lower
  have hu := isInt64_iff.1 h₂.upper
  have hle := h₂.le
  constructor
  · refine ⟨0, rfl, encloses_constant le_rfl ?_⟩
    split_ifs
    · exact le_max_right _ _
    · decide
  · intro x y z ho he
    rw [Token.eval] at he
    split_ifs at he with hy
    cases he
    have hy1 := ho.right_lower
    have hy2 := ho.right_upper
    have h0 := emod_nonneg x hy
    have h1 := emod_lt_abs x hy
    refine encloses_constant h0 ?_
    change _ ≤ if l₂ ≠ -2 ^ 63 then _ else 2 ^ 63 - 1
    by_cases hm : l₂ = -2 ^ 63
    · rw [if_neg (by simpa using hm)]
      have ha : |y| ≤ 2 ^ 63 := abs_le.2 ⟨by omega, by omega⟩
      omega
    rw [if_pos hm, absWithSaturation_eq h₂.lower, absWithSaturation_eq h₂.upper, if_neg hm,
      if_neg (by omega)]
    have ha := abs_le_max_abs_abs hy1 hy2
    exact le_max_of_le_left (by omega)

/-! ## Every operation -/

theorem eval_isInt64 {op : Token} (hx : isInt64 x = true) (hy : isInt64 y = true)
    (he : op.eval x y = some z) : isInt64 z = true := by
  have hb : ∀ f, isInt64 (Int.bitwise f x y) = true := fun f =>
    isInt64_iff_inWidth.2 ((isInt64_iff_inWidth.1 hx).bitwise f (isInt64_iff_inWidth.1 hy))
  cases op with
  | kADD | kSUB | kMUL => cases he; exact isInt64_bmod _
  | kTRUNCDIV =>
    rw [Token.eval] at he
    split_ifs at he
    cases he
    exact isInt64_bmod _
  | kMOD =>
    rw [Token.eval] at he
    split_ifs at he with h0
    cases he
    have h1 := emod_nonneg x h0
    have h2 := emod_lt_abs x h0
    rw [isInt64_iff] at hy ⊢
    have ha : |y| ≤ 2 ^ 63 := abs_le.2 ⟨by omega, by omega⟩
    omega
  | kBIT_AND => rw [isBitwise_and.eval] at he; cases he; exact hb _
  | kBIT_OR => rw [isBitwise_or.eval] at he; cases he; exact hb _
  | kBIT_XOR => rw [isBitwise_xor.eval] at he; cases he; exact hb _
  | kSHL =>
    rw [Token.eval] at he
    split_ifs at he
    · cases he; rfl
    · cases he; exact isInt64_bmod _
  | kSHR => rw [eval_shr hx he]; exact isInt64_ediv hx _
  | kUSHR => rw [eval_ushr he]; exact isInt64_bmod _

/-- Each operation stores boundaries that are sound. -/
theorem binaryOp_boundaries (hk : g.target.kSmiBits ≤ 62) (op : Token) (h₁ : IsRange l₁ u₁)
    (h₂ : IsRange l₂ u₂)
    (hlength : ∀ d ∈ leftLength, g.target.isSmi (v d) = true ∧ l₁ ≤ v d ∧ v d ≤ u₁) :
    ∃ b, g.binaryOp (n + 1) op (constantRange l₁ u₁) (constantRange l₂ u₂) leftLength =
      some (Range.new b.1 b.2) ∧ Sound v leftLength op l₁ u₁ l₂ u₂ b := by
  have hnw : ∀ {o : Option Boundaries}, (∃ b, o = some b ∧ Sound v leftLength op l₁ u₁ l₂ u₂ b) →
      ∃ b, (o.bind fun b => some (Range.new b.1 b.2)) = some (Range.new b.1 b.2) ∧
        Sound v leftLength op l₁ u₁ l₂ u₂ b := by
    rintro o ⟨b, ho, hb⟩
    rw [ho]
    exact ⟨b, rfl, hb⟩
  cases op with
  | kADD => exact hnw (addRange_sound h₁ h₂ hlength)
  | kSUB => exact hnw (subRange_sound h₁ h₂ hlength)
  | kMUL => exact hnw (mulRange_sound hk h₁ h₂)
  | kTRUNCDIV => exact hnw (truncDivRange_sound h₁ h₂)
  | kMOD => exact hnw (modRange_sound h₂)
  | kBIT_AND => exact hnw (andRange_sound h₁ h₂)
  | kBIT_OR => exact hnw (bitwiseOp_sound isBitwise_or h₁ h₂)
  | kBIT_XOR => exact hnw (bitwiseOp_sound isBitwise_xor h₁ h₂)
  | kSHL => exact hnw (shlRange_sound h₁ h₂)
  | kSHR => exact hnw (shrRange_sound h₁ h₂)
  | kUSHR => exact hnw (ushrRange_sound h₁ h₂)

end

/-- **The range of an operation is sound.** On constant ranges of 64-bit integers, `BinaryOp`
returns a range that is not empty and contains the wrapped-around result for all operands on which
the operation does not throw. If the left operand is an array length, which is a Smi of the left
range, the range may be symbolic in it. -/
theorem binaryOp_spec {g : FlowGraph} (hk : g.target.kSmiBits ≤ 62) (n : Nat) (op : Token)
    {l₁ u₁ l₂ u₂ : Int} (h₁ : IsRange l₁ u₁) (h₂ : IsRange l₂ u₂) (leftLength : Option DefId)
    (v : DefId → Int)
    (hlength : ∀ d ∈ leftLength, g.target.isSmi (v d) = true ∧ l₁ ≤ v d ∧ v d ≤ u₁) :
    ∃ r, g.binaryOp (n + 1) op (constantRange l₁ u₁) (constantRange l₂ u₂) leftLength = some r ∧
      (∃ z, isInt64 z = true ∧ Contains v r.min r.max z) ∧
      ∀ x y z, Operands v leftLength l₁ u₁ l₂ u₂ x y → op.eval x y = some z →
        Contains v r.min r.max z := by
  obtain ⟨b, heq, hsn⟩ := @binaryOp_boundaries v g n _ _ _ _ _ hk op h₁ h₂ hlength
  refine ⟨_, heq, ?_, ?_⟩
  · obtain ⟨z, hz, hen⟩ := hsn.nonempty
    exact ⟨z, hz, hen.contains hz⟩
  intro x y z ho he
  have hx := isInt64_between h₁.lower h₁.upper ho.left_lower ho.left_upper
  have hy := isInt64_between h₂.lower h₂.upper ho.right_lower ho.right_upper
  exact (hsn.encloses ho he).contains (eval_isInt64 hx hy he)

/-- One more than an array length. -/
theorem binaryOp_spec_length :
    ∃ r, FlowGraph.binaryOp ⟨⟨62⟩, fun _ => .other 0 0 [] true none, fun _ => none⟩ 1 .kADD
        (constantRange 0 9) (constantRange 1 1) (some 0) = some r ∧
      (∃ z, isInt64 z = true ∧ Contains (fun _ => 5) r.min r.max z) ∧
      ∀ x y z, Operands (fun _ => 5) (some 0) 0 9 1 1 x y → Token.eval .kADD x y = some z →
        Contains (fun _ => 5) r.min r.max z :=
  binaryOp_spec (by decide) 0 .kADD ⟨by decide, by decide, by decide⟩
    ⟨by decide, by decide, by decide⟩ (some 0) (fun _ => 5)
    fun d hd => ⟨by decide, by decide, by decide⟩

end Backend.Proof
