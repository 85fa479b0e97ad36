import DartSdk.Backend.Proof.RangeAnalysis
import DartSdk.Backend.RangeArithmetic
import DartSdk.Lib.TwosComplement
import Mathlib.Tactic.Linarith

/-!
# Shifts and bitwise operations on constant ranges

* `Encloses`: what an operation stores in its two boundaries encloses a value, or one of them is
  infinite, and then the range is the full 64-bit range.
* `Sound`: the boundaries enclose every result of the operation and at least one value.
* `shlRange_sound`, `shrRange_sound`, `ushrRange_sound`, `bitwiseOp_sound`, `andRange_sound`: one
  lemma for each operation.
-/

namespace Backend.Proof

open Loops RangeBoundary FlowGraph TwosComplement Bool Int Utils

variable {v : DefId → Int} {x y z : Int} {op : Token}

/-! ## 64-bit integers -/

theorem isInt64_iff : isInt64 x = true ↔ -2 ^ 63 ≤ x ∧ x ≤ 2 ^ 63 - 1 := by
  rw [isInt64, and_eq_true, decide_eq_true_eq, decide_eq_true_eq]
  exact Iff.rfl

theorem isInt64_iff_inWidth : isInt64 x = true ↔ InWidth 63 x := by
  rw [isInt64_iff, InWidth]
  omega

theorem isInt64_bmod (x : Int) : isInt64 (x.bmod (2 ^ 64)) = true := by
  have h1 := @le_bmod x (2 ^ 64) (by decide)
  have h2 := @bmod_lt x (2 ^ 64) (by decide)
  rw [isInt64_iff]
  omega

theorem bmod_of_isInt64 (h : isInt64 x = true) : x.bmod (2 ^ 64) = x := by
  rw [isInt64_iff] at h
  exact bmod_eq_of_le (by omega) (by omega)

theorem isInt64_between {l u : Int} (hl : isInt64 l = true) (hu : isInt64 u = true) (h1 : l ≤ x)
    (h2 : x ≤ u) : isInt64 x = true := by
  rw [isInt64_iff_inWidth] at *
  exact hl.between hu h1 h2

/-! ## Ranges with their values -/

/-- The value of a boundary; an infinite or unknown one has none. -/
def value (v : DefId → Int) : RangeBoundary → Option Int
  | symbol s offs => some (v s + offs)
  | constant c => some c
  | _ => none

/-- The value is within the boundaries. -/
def Contains (v : DefId → Int) (min max : RangeBoundary) (z : Int) : Prop :=
  ∃ lo hi, value v min = some lo ∧ value v max = some hi ∧ lo ≤ z ∧ z ≤ hi

/-- A boundary is infinite, or the value is within the boundaries. -/
def Encloses (v : DefId → Int) (b : Boundaries) (z : Int) : Prop :=
  b.1.isInfinity = true ∨ b.2.isInfinity = true ∨ Contains v b.1 b.2 z

theorem encloses_constant {lo hi : Int} (h1 : lo ≤ z) (h2 : z ≤ hi) :
    Encloses v (constant lo, constant hi) z := .inr (.inr ⟨lo, hi, rfl, rfl, h1, h2⟩)

theorem Encloses.contains {b : Boundaries} (h : Encloses v b z) (hz : isInt64 z = true) :
    Contains v (Range.new b.1 b.2).min (Range.new b.1 b.2).max z := by
  rw [isInt64_iff] at hz
  rw [Range.new]
  split_ifs with hf
  · rcases h with h | h | h
    · rw [hf.1] at h; cases h
    · rw [hf.2] at h; cases h
    · exact h
  · exact ⟨_, _, rfl, rfl, hz.1, hz.2⟩

/-! ## Constant ranges -/

/-- A range with constant boundaries. -/
def constantRange (l u : Int) : Range := ⟨constant l, constant u, rfl, rfl⟩

/-- The boundaries are in order and are 64-bit integers. -/
structure IsRange (l u : Int) : Prop where
  lower : isInt64 l = true
  upper : isInt64 u = true
  le : l ≤ u

/-- The operands are in their ranges, and the left one is the array length if there is one. -/
structure Operands (v : DefId → Int) (leftLength : Option DefId) (l₁ u₁ l₂ u₂ x y : Int) :
    Prop where
  left_lower : l₁ ≤ x
  left_upper : x ≤ u₁
  right_lower : l₂ ≤ y
  right_upper : y ≤ u₂
  length : ∀ d ∈ leftLength, v d = x

/-- The boundaries enclose every result of the operation, and at least one value. -/
structure Sound (v : DefId → Int) (leftLength : Option DefId) (op : Token) (l₁ u₁ l₂ u₂ : Int)
    (b : Boundaries) : Prop where
  nonempty : ∃ z, isInt64 z = true ∧ Encloses v b z
  encloses : ∀ {x y z}, Operands v leftLength l₁ u₁ l₂ u₂ x y → op.eval x y = some z →
    Encloses v b z

theorem sound_of_isInfinity {leftLength : Option DefId} {l₁ u₁ l₂ u₂ : Int}
    {b : Boundaries} (h : b.1.isInfinity = true ∨ b.2.isInfinity = true) :
    Sound v leftLength op l₁ u₁ l₂ u₂ b where
  nonempty := ⟨0, rfl, h.imp id .inl⟩
  encloses _ _ := h.imp id .inl

section
variable {g : FlowGraph} {n : Nat} {l u l₁ u₁ l₂ u₂ : Int} {leftLength : Option DefId}

theorem clamp_int64 {c : Int} (h : isInt64 c = true) :
    (constant c).clamp g.target .int64 = constant c := by
  rw [isInt64_iff] at h
  change (if c ≤ -2 ^ 63 then constant (-2 ^ 63)
    else if c ≥ 2 ^ 63 - 1 then constant (2 ^ 63 - 1) else constant c) = _
  split_ifs
  · congr 1; omega
  · congr 1; omega
  · rfl

theorem constantMin_constant (h : IsRange l u) :
    g.constantMin (n + 1) (constantRange l u) = some l := by
  change ((constant l).clamp g.target .int64).constantValue = _
  rw [clamp_int64 h.lower]
  rfl

theorem constantMax_constant (h : IsRange l u) :
    g.constantMax (n + 1) (constantRange l u) = some u := by
  change ((constant u).clamp g.target .int64).constantValue = _
  rw [clamp_int64 h.upper]
  rfl

/-! ## Shifts -/

/-- The counts of a shift by a value that does not throw. -/
theorem count_bounds (h1 : l₂ ≤ y) (h2 : y ≤ u₂) (h0 : 0 ≤ y) :
    (max l₂ 0).toNat ≤ y.toNat ∧ y.toNat ≤ (max u₂ 0).toNat := by
  omega

theorem shiftCounts_constant (h : IsRange l₂ u₂) :
    g.shiftCounts (n + 1) (constantRange l₂ u₂) = some (max l₂ 0, max u₂ 0) := by
  rw [shiftCounts, constantMin_constant h, constantMax_constant h]
  rfl

/-- A negative count throws. -/
theorem eval_count (hop : op = .kSHL ∨ op = .kSHR ∨ op = .kUSHR)
    (he : op.eval x y = some z) : 0 ≤ y := by
  by_contra hy
  rcases hop with rfl | rfl | rfl <;> rw [Token.eval, if_pos (by omega)] at he <;> cases he

theorem shl_cases {vl ct : Int} {ov : RangeBoundary} (hcn : 0 ≤ ct)
    (ho : ov.isInfinity = true) (hv : isInt64 vl = true) :
    (shl vl ct ov).isInfinity = true ∨
      (shl vl ct ov = constant (vl * 2 ^ ct.toNat) ∧ isInt64 (vl * 2 ^ ct.toNat) = true) := by
  rw [shl]
  split_ifs with h0 h
  · subst h0
    rw [Int.zero_mul]
    exact .inr ⟨rfl, rfl⟩
  · refine .inr ⟨rfl, ?_⟩
    by_cases hc : ct = 0
    · subst hc
      simpa using hv
    obtain ⟨hl, hi⟩ := h.resolve_left hc
    simp only [isIntN, or_eq_true, and_eq_true, decide_eq_true_eq] at hi
    obtain ⟨hlo, hhi⟩ := hi.resolve_left (by omega)
    have hp : (2 : Int) ^ ((64 - ct).toNat - 1) * 2 ^ ct.toNat = 2 ^ 63 := by
      rw [← Int.pow_add]
      congr 1
      omega
    have hps : (0 : Int) < 2 ^ ct.toNat := Int.pow_pos (by decide)
    have h1 := Int.mul_le_mul_of_nonneg_right hlo hps.le
    have h2 := Int.mul_lt_mul_of_pos_right hhi hps
    rw [Int.neg_mul, hp] at h1
    rw [hp] at h2
    rw [isInt64_iff]
    omega
  · exact .inl ho

theorem shl_between {a b k : Nat} (hl : l ≤ x) (hu : x ≤ u) (ha : a ≤ k) (hb : k ≤ b) :
    l * 2 ^ (if l > 0 then a else b) ≤ x * 2 ^ k ∧
      x * 2 ^ k ≤ u * 2 ^ (if u > 0 then b else a) := by
  constructor
  · split_ifs with h
    · exact (mul_two_pow_le hl ha).1 (by omega)
    · exact (mul_two_pow_le hl hb).2 (by omega)
  · split_ifs with h
    · exact (mul_two_pow_le hu hb).1 (by omega)
    · exact (mul_two_pow_le hu ha).2 (by omega)

/-- A left shift that stays in 64 bits does not lose bits. -/
theorem eval_shl (hy : 0 ≤ y) (h : isInt64 (x * 2 ^ y.toNat) = true)
    (he : Token.eval .kSHL x y = some z) : z = x * 2 ^ y.toNat := by
  rw [Token.eval, if_neg (by omega)] at he
  split_ifs at he with hl
  · cases he
    rw [isInt64_iff] at h
    have hp : (2 : Int) ^ 64 ≤ 2 ^ y.toNat := pow_le_pow_right₀ (by decide) (by omega)
    have h0 : x = 0 := by
      by_contra hx
      rcases lt_or_gt_of_ne hx with hx | hx
      · nlinarith
      · nlinarith
    rw [h0, Int.zero_mul]
  · cases he
    exact bmod_of_isInt64 h

theorem toNat_ite {p : Prop} [Decidable p] {a b : Int} :
    (if p then a else b).toNat = if p then a.toNat else b.toNat := apply_ite Int.toNat p a b

theorem ite_max_nonneg {p : Prop} [Decidable p] {a b : Int} :
    0 ≤ if p then max a 0 else max b 0 := by
  split_ifs <;> omega

theorem shlRange_sound (h₁ : IsRange l₁ u₁) (h₂ : IsRange l₂ u₂) :
    ∃ b, g.shlRange (n + 1) (constantRange l₁ u₁) (constantRange l₂ u₂) = some b ∧
      Sound v leftLength .kSHL l₁ u₁ l₂ u₂ b := by
  refine ⟨_, by rw [shlRange, constantMin_constant h₁, constantMax_constant h₁,
    shiftCounts_constant h₂]; rfl, ?_⟩
  have hi : ∀ c : Int,
      (if c > 0 then positiveInfinity else negativeInfinity).isInfinity = true := by
    intro c
    split_ifs
    · rfl
    · rfl
  rcases shl_cases (@ite_max_nonneg (l₁ > 0) _ l₂ u₂) (hi l₁) h₁.lower with hlo | ⟨hlo, hlo64⟩
  · exact sound_of_isInfinity (.inl hlo)
  rcases shl_cases (@ite_max_nonneg (u₁ > 0) _ u₂ l₂) (hi u₁) h₁.upper with hhi | ⟨hhi, hhi64⟩
  · exact sound_of_isInfinity (.inr hhi)
  rw [toNat_ite] at hlo64 hhi64
  rw [hlo, hhi, toNat_ite, toNat_ite]
  constructor
  · have hle := h₂.le
    obtain ⟨h1, h2⟩ := @shl_between l₁ l₁ u₁ _ (max u₂ 0).toNat _ le_rfl h₁.le
      (le_refl (max l₂ 0).toNat) (by omega)
    exact ⟨_, isInt64_between hlo64 hhi64 h1 h2, encloses_constant h1 h2⟩
  · intro x y z ho he
    have hy := eval_count (.inl rfl) he
    obtain ⟨ha, hb⟩ := count_bounds ho.right_lower ho.right_upper hy
    obtain ⟨h1, h2⟩ := shl_between ho.left_lower ho.left_upper ha hb
    rw [eval_shl hy (isInt64_between hlo64 hhi64 h1 h2) he]
    exact encloses_constant h1 h2

/-- A right shift by 63 bits or more leaves the sign. -/
theorem ediv_of_large {k : Nat} (hk : 63 ≤ k) (h : isInt64 x = true) :
    x / 2 ^ k = if x ≥ 0 then 0 else -1 := by
  rw [isInt64_iff] at h
  have hp : (2 : Int) ^ 63 ≤ 2 ^ k := pow_le_pow_right₀ (by decide) hk
  split_ifs with h0
  · exact ediv_eq_zero_of_lt h0 (by omega)
  · exact ediv_eq_neg_one_of_neg_of_le (by omega) (by omega)

theorem shr_eq {vl ct : Int} (h : isInt64 vl = true) :
    shr vl ct = constant (vl / 2 ^ ct.toNat) := by
  rw [shr]
  split_ifs with hsm h0
  · rfl
  · rw [ediv_of_large (by omega) h, if_pos h0]
  · rw [ediv_of_large (by omega) h, if_neg h0]

theorem eval_shr (h : isInt64 x = true) (he : Token.eval .kSHR x y = some z) :
    z = x / 2 ^ y.toNat := by
  rw [Token.eval, if_neg (by have := eval_count (.inr (.inl rfl)) he; omega)] at he
  split at he
  · cases he
    rw [ediv_of_large (by omega) h]
  · cases he
    rfl

theorem shr_between {a b k : Nat} (hl : l ≤ x) (hu : x ≤ u) (ha : a ≤ k) (hb : k ≤ b) :
    l / 2 ^ (if l > 0 then b else a) ≤ x / 2 ^ k ∧
      x / 2 ^ k ≤ u / 2 ^ (if u > 0 then a else b) := by
  constructor
  · split_ifs with h
    · exact (ediv_two_pow_le hl hb).1 (by omega)
    · exact (ediv_two_pow_le hl ha).2 (by omega)
  · split_ifs with h
    · exact (ediv_two_pow_le hu ha).1 (by omega)
    · exact (ediv_two_pow_le hu hb).2 (by omega)

theorem isInt64_ediv (h : isInt64 x = true) (k : Nat) : isInt64 (x / 2 ^ k) = true := by
  have h0 : (2 : Int) ^ 0 ≤ 2 ^ k := pow_le_pow_right₀ (by decide) (Nat.zero_le k)
  rw [isInt64_iff] at h ⊢
  constructor
  · exact (Int.le_ediv_iff_mul_le (by omega)).2 (by nlinarith)
  · exact (ediv_le_iff_le_mul (by omega)).2 (by nlinarith)

theorem shrRange_sound (h₁ : IsRange l₁ u₁) (h₂ : IsRange l₂ u₂) :
    ∃ b, g.shrRange (n + 1) (constantRange l₁ u₁) (constantRange l₂ u₂) = some b ∧
      Sound v leftLength .kSHR l₁ u₁ l₂ u₂ b := by
  refine ⟨_, by rw [shrRange, constantMin_constant h₁, constantMax_constant h₁,
    shiftCounts_constant h₂]; rfl, ?_⟩
  rw [shr_eq h₁.lower, shr_eq h₁.upper, toNat_ite, toNat_ite]
  constructor
  · have hle := h₂.le
    obtain ⟨h1, h2⟩ := @shr_between l₁ l₁ u₁ _ (max u₂ 0).toNat _ le_rfl h₁.le
      (le_refl (max l₂ 0).toNat) (by omega)
    exact ⟨_, isInt64_ediv h₁.lower _, encloses_constant h1 h2⟩
  · intro x y z ho he
    have hy := eval_count (.inr (.inl rfl)) he
    obtain ⟨ha, hb⟩ := count_bounds ho.right_lower ho.right_upper hy
    obtain ⟨h1, h2⟩ := shr_between ho.left_lower ho.left_upper ha hb
    rw [eval_shr (isInt64_between h₁.lower h₁.upper ho.left_lower ho.left_upper) he]
    exact encloses_constant h1 h2

/-! ## Unsigned shifts -/

theorem convertRangeToUnsigned_spec (h : IsRange l u) :
    0 ≤ (convertRangeToUnsigned l u).1 ∧ (convertRangeToUnsigned l u).2 < 2 ^ 64 ∧
      ∀ x, l ≤ x → x ≤ u → (convertRangeToUnsigned l u).1 ≤ x % 2 ^ 64 ∧
        x % 2 ^ 64 ≤ (convertRangeToUnsigned l u).2 := by
  have h1 := isInt64_iff.1 h.lower
  have h2 := isInt64_iff.1 h.upper
  rw [convertRangeToUnsigned]
  split_ifs with hs
  · exact ⟨by omega, by omega, fun x hl hu => by dsimp only; omega⟩
  dsimp only
  refine ⟨by omega, by omega, fun x hl hu => ?_⟩
  rcases Decidable.not_and_iff_not_or_not.1 hs with hs | hs
  · omega
  · omega

theorem convertRangeToSigned_spec {a b : Int} (ha : 0 ≤ a) (hb : b < 2 ^ 64) (h1 : a ≤ x)
    (h2 : x ≤ b) :
    (convertRangeToSigned a b).1 ≤ x.bmod (2 ^ 64) ∧
      x.bmod (2 ^ 64) ≤ (convertRangeToSigned a b).2 := by
  rw [convertRangeToSigned]
  split_ifs with hs
  · exact isInt64_iff.1 (isInt64_bmod x)
  have hm : kMaxInt64 = 2 ^ 63 - 1 := rfl
  rw [hm] at hs
  rw [bmod_def, bmod_def, bmod_def]
  omega

/-- A shift by 64 bits or more leaves nothing. -/
theorem ushr_eq {ct : Int} (h0 : 0 ≤ x) (h : x < 2 ^ 64) :
    (if ct ≥ 64 then 0 else x / 2 ^ ct.toNat) = x / 2 ^ ct.toNat := by
  split_ifs with hc
  · have hp : (2 : Int) ^ 64 ≤ 2 ^ ct.toNat := pow_le_pow_right₀ (by decide) (by omega)
    rw [ediv_eq_zero_of_lt h0 (by omega)]
  · rfl

theorem eval_ushr (he : Token.eval .kUSHR x y = some z) :
    z = (x % 2 ^ 64 / 2 ^ y.toNat).bmod (2 ^ 64) := by
  have hy := eval_count (.inr (.inr rfl)) he
  rw [← ushr_eq (by omega) (by omega)]
  rw [Token.eval, if_neg (by omega)] at he
  split_ifs at he with hc
  · cases he
    rw [if_pos hc]
    rfl
  · cases he
    rw [if_neg hc]

theorem ushrRange_sound (h₁ : IsRange l₁ u₁) (h₂ : IsRange l₂ u₂) :
    ∃ b, g.ushrRange (n + 1) (constantRange l₁ u₁) (constantRange l₂ u₂) = some b ∧
      Sound v leftLength .kUSHR l₁ u₁ l₂ u₂ b := by
  obtain ⟨ha, hb, hbt⟩ := convertRangeToUnsigned_spec h₁
  have hle := hbt l₁ le_rfl h₁.le
  have hc := h₂.le
  generalize hu : convertRangeToUnsigned l₁ u₁ = r at ha hb hbt hle
  have heq : g.ushrRange (n + 1) (constantRange l₁ u₁) (constantRange l₂ u₂) = some
      (constant (convertRangeToSigned (r.1 / 2 ^ (max u₂ 0).toNat) (r.2 / 2 ^ (max l₂ 0).toNat)).1,
        constant (convertRangeToSigned (r.1 / 2 ^ (max u₂ 0).toNat)
          (r.2 / 2 ^ (max l₂ 0).toNat)).2) := by
    rw [ushrRange, constantMin_constant h₁, constantMax_constant h₁, shiftCounts_constant h₂,
      ← @ushr_eq r.1 (max u₂ 0) ha (by omega), ← @ushr_eq r.2 (max l₂ 0) (by omega) hb, ← hu]
    rfl
  refine ⟨_, heq, ?_⟩
  have hlo : 0 ≤ r.1 / 2 ^ (max u₂ 0).toNat := ediv_nonneg ha (Int.pow_nonneg (by decide))
  have hhi : r.2 / 2 ^ (max l₂ 0).toNat < 2 ^ 64 := (ediv_le_self _ (by omega)).trans_lt hb
  constructor
  · obtain ⟨h1, h2⟩ := convertRangeToSigned_spec hlo hhi le_rfl
      ((ediv_two_pow_le (hle.1.trans hle.2) (by omega)).1 (by omega))
    exact ⟨_, isInt64_bmod _, encloses_constant h1 h2⟩
  intro x y z ho he
  have hy := eval_count (.inr (.inr rfl)) he
  obtain ⟨hka, hkb⟩ := count_bounds ho.right_lower ho.right_upper hy
  obtain ⟨hl, hu⟩ := hbt x ho.left_lower ho.left_upper
  obtain ⟨h1, h2⟩ := convertRangeToSigned_spec hlo hhi
    ((ediv_two_pow_le hl hkb).1 (by omega)) ((ediv_two_pow_le hu hka).1 (by omega))
  rw [eval_ushr he]
  exact encloses_constant h1 h2

/-! ## Bitwise operations -/

/-- Each step halves the bits that are left and keeps a bound on the value. -/
theorem highestBitStep_spec {s : Nat × Nat} {sh width w : Nat} (h : s.1 < 2 ^ width ∧
      w < (s.1 + 1) * 2 ^ s.2) (hwd : width = 2 * sh) :
    (highestBitStep s sh).1 < 2 ^ sh ∧
      w < ((highestBitStep s sh).1 + 1) * 2 ^ (highestBitStep s sh).2 := by
  obtain ⟨h1, h2⟩ := h
  subst hwd
  have hp : 0 < 2 ^ sh := Nat.two_pow_pos sh
  rw [highestBitStep, Nat.shiftRight_eq_div_pow]
  split_ifs with h
  · refine ⟨Nat.div_lt_of_lt_mul (by rw [← Nat.pow_add, ← Nat.two_mul]; exact h1), ?_⟩
    have hlt : s.1 + 1 ≤ (s.1 / 2 ^ sh + 1) * 2 ^ sh := by
      rw [Nat.add_mul, Nat.one_mul]
      exact Nat.lt_div_mul_add hp
    calc w < (s.1 + 1) * 2 ^ s.2 := h2
      _ ≤ (s.1 / 2 ^ sh + 1) * 2 ^ sh * 2 ^ s.2 := Nat.mul_le_mul_right _ hlt
      _ = (s.1 / 2 ^ sh + 1) * 2 ^ (s.2 + sh) := by
        rw [Nat.mul_assoc, ← Nat.pow_add, Nat.add_comm sh]
  · exact ⟨(Nat.div_eq_zero_iff_lt hp).1 (by omega), h2⟩

theorem lt_highestBit (h0 : 0 < x) (h : x < 2 ^ 64) : x < 2 ^ (highestBit x + 1) := by
  lift x to Nat using h0.le
  have h64 : (x, 0).1 < 2 ^ 64 ∧ x < ((x, 0).1 + 1) * 2 ^ (x, 0).2 := by
    dsimp only
    omega
  have ha : ([32, 16, 8, 4, 2].foldl highestBitStep (x, 0)).1 < 2 ^ 2 ∧
      x < (([32, 16, 8, 4, 2].foldl highestBitStep (x, 0)).1 + 1) *
        2 ^ ([32, 16, 8, 4, 2].foldl highestBitStep (x, 0)).2 := by
    apply @highestBitStep_spec _ 2 4 x _ rfl
    apply @highestBitStep_spec _ 4 8 x _ rfl
    apply @highestBitStep_spec _ 8 16 x _ rfl
    apply @highestBitStep_spec _ 16 32 x _ rfl
    exact @highestBitStep_spec _ 32 64 x h64 rfl
  rw [highestBit, if_pos h0, toNat_natCast]
  generalize [32, 16, 8, 4, 2].foldl highestBitStep (x, 0) = s at ha
  obtain ⟨r, k⟩ := s
  obtain ⟨hr, hx⟩ := ha
  have hlt : x < 2 ^ ((if r > 1 then k + 1 else k) + 1) := by
    refine hx.trans_le ?_
    split_ifs with h1
    · rw [Nat.pow_succ, Nat.pow_succ, Nat.mul_assoc, Nat.mul_comm]
      exact Nat.mul_le_mul_left _ (by omega)
    · rw [Nat.pow_succ, Nat.mul_comm]
      exact Nat.mul_le_mul_left _ (by omega)
  have hc := ofNat_lt.2 hlt
  rwa [natCast_pow] at hc

theorem inWidth_bitLength (h : isInt64 x = true) : InWidth (bitLength x) x := by
  rw [isInt64_iff] at h
  rw [bitLength]
  by_cases hn : x < 0
  · rw [if_pos hn]
    split_ifs with h0
    · rw [inWidth_zero]
      omega
    · have := lt_highestBit (x := -x - 1) (by omega) (by omega)
      rw [InWidth]
      omega
  · rw [if_neg hn]
    split_ifs with h0
    · rw [inWidth_zero]
      omega
    · have := lt_highestBit (x := x) (by omega) (by omega)
      rw [InWidth]
      omega

theorem bitSize_constant (h : IsRange l u) :
    ∃ w, g.bitSize (n + 1) (constantRange l u) = some w ∧ ∀ x, l ≤ x → x ≤ u → InWidth w x := by
  refine ⟨_, by rw [bitSize, constantMin_constant h, constantMax_constant h]; rfl, ?_⟩
  intro x hl hu
  have h1 := (inWidth_bitLength h.lower).mono (Nat.le_max_left _ (bitLength u))
  have h2 := (inWidth_bitLength h.upper).mono (Nat.le_max_right (bitLength l) _)
  exact h1.between h2 hl hu

/-- The bitwise operation of an operator. -/
structure IsBitwise (op : Token) (f : Bool → Bool → Bool) : Prop where
  eval : ∀ x y, op.eval x y = some (Int.bitwise f x y)
  false : f false false = false

theorem isBitwise_and : IsBitwise .kBIT_AND and :=
  ⟨fun x y => by rw [bitwise_and]; rfl, rfl⟩

theorem isBitwise_or : IsBitwise .kBIT_OR or :=
  ⟨fun x y => by rw [bitwise_or]; rfl, rfl⟩

theorem isBitwise_xor : IsBitwise .kBIT_XOR xor :=
  ⟨fun x y => by rw [bitwise_xor]; rfl, rfl⟩

theorem bitwiseOp_sound {f : Bool → Bool → Bool} (hop : IsBitwise op f)
    (h₁ : IsRange l₁ u₁) (h₂ : IsRange l₂ u₂) :
    ∃ b, g.bitwiseOp (n + 1) (constantRange l₁ u₁) (constantRange l₂ u₂) = some b ∧
      Sound v leftLength op l₁ u₁ l₂ u₂ b := by
  obtain ⟨w1, hw1, hin1⟩ := @bitSize_constant g n _ _ h₁
  obtain ⟨w2, hw2, hin2⟩ := @bitSize_constant g n _ _ h₂
  have hps : (0 : Int) < 2 ^ (Nat.max w1 w2) := Int.pow_pos (by decide)
  have heq : g.bitwiseOp (n + 1) (constantRange l₁ u₁) (constantRange l₂ u₂) = some
      (constant (if 0 ≤ l₁ ∧ 0 ≤ l₂ then 0 else -2 ^ Nat.max w1 w2),
        constant (2 ^ Nat.max w1 w2 - 1)) := by
    have hp : ∀ {l u}, g.isPositive (n + 1) (constantRange l u) = some (decide (0 ≤ l)) :=
      fun {l u} => rfl
    rw [bitwiseOp, hw1, hw2, hp, hp]
    simp
  refine ⟨_, heq, ⟨⟨0, rfl, ?_⟩, ?_⟩⟩
  · refine encloses_constant ?_ (by omega)
    split_ifs <;> omega
  intro x y z ho he
  have hx := (hin1 x ho.left_lower ho.left_upper).mono (Nat.le_max_left w1 w2)
  have hy := (hin2 y ho.right_lower ho.right_upper).mono (Nat.le_max_right w1 w2)
  obtain ⟨h1, h2⟩ := hx.bitwise f hy
  rw [hop.eval] at he
  cases he
  refine encloses_constant ?_ (le_sub_one_of_lt h2)
  split_ifs with h0
  · have := ho.left_lower
    have := ho.right_lower
    exact bitwise_nonneg hop.false (by omega) (by omega)
  · exact h1

theorem andRange_sound (h₁ : IsRange l₁ u₁) (h₂ : IsRange l₂ u₂) :
    ∃ b, g.andRange (n + 1) (constantRange l₁ u₁) (constantRange l₂ u₂) = some b ∧
      Sound v leftLength .kBIT_AND l₁ u₁ l₂ u₂ b := by
  have hle1 := h₁.le
  have hle2 := h₂.le
  have hw : ∀ {x y}, Operands v leftLength l₁ u₁ l₂ u₂ x y → InWidth 63 x ∧ InWidth 63 y := by
    intro x y ho
    exact ⟨isInt64_iff_inWidth.1 (isInt64_between h₁.lower h₁.upper ho.left_lower ho.left_upper),
      isInt64_iff_inWidth.1 (isInt64_between h₂.lower h₂.upper ho.right_lower ho.right_upper)⟩
  simp only [andRange, constantMin_constant h₁, constantMin_constant h₂, constantMax_constant h₁,
    constantMax_constant h₂, some_bind]
  split_ifs with hr hl
  · refine ⟨_, rfl, ⟨0, rfl, encloses_constant le_rfl (by omega)⟩, ?_⟩
    intro x y z ho he
    cases he
    have hy := ho.right_lower
    obtain ⟨h1, h2⟩ := land_bounds (hw ho).1 (hw ho).2 (by omega)
    exact encloses_constant h1 (h2.trans ho.right_upper)
  · refine ⟨_, rfl, ⟨0, rfl, encloses_constant le_rfl (by omega)⟩, ?_⟩
    intro x y z ho he
    cases he
    have hx := ho.left_lower
    obtain ⟨h1, h2⟩ := land_bounds (hw ho).2 (hw ho).1 (by omega)
    rw [TwosComplement.land_comm] at h1 h2
    exact encloses_constant h1 (h2.trans ho.left_upper)
  · exact bitwiseOp_sound isBitwise_and h₁ h₂

end

end Backend.Proof
