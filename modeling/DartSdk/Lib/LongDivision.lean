import Mathlib.Tactic.Ring

/-!
# Long division with the quotient above the remainder

Long division of `X` by `Y`, where `Y` has `m` digits in base `b`, on one number `V` that holds both
results: the digits below `j + m` are the current remainder and the digits above are the quotient
digits found so far (`Partial`). Adding `q * (b ^ m - Y)` at digit `j` subtracts `q * Y` from the
remainder and puts `q` on top of it.

* `Partial.digit_eq`, `Partial.digit_lt`: the digit on top tells whether `q` was too large.
* `quotient_le_estimate`: the estimate from the two leading digits is not too small.
-/

namespace LongDivision

open Nat

variable {b m X Y V j q : Nat}

/-- Before quotient digit `j - 1`: the remainder is below `Y * b ^ j`, and quotient and remainder make
up `X`. -/
structure Partial (b m X Y j V : Nat) : Prop where
  rem_lt : V % b ^ (j + m) < Y * b ^ j
  total : V % b ^ (j + m) + Y * b ^ j * (V / b ^ (j + m)) = X

/-- The next quotient digit. -/
def quotientDigit (b m Y j V : Nat) : Nat := V % b ^ (j + 1 + m) / (Y * b ^ j)

/-- The number after `q` times the divisor is subtracted at digit `j`. -/
def subtract (b m Y j V q : Nat) : Nat := V + q * (b ^ m - Y) * b ^ j

theorem subtract_succ :
    subtract b m Y j V (q + 1) = subtract b m Y j V q + (b ^ m - Y) * b ^ j := by
  rw [subtract, subtract]
  ring

theorem quotientDigit_lt (h : Partial b m X Y (j + 1) V) : quotientDigit b m Y j V < b := by
  refine Nat.div_lt_of_lt_mul ?_
  have := h.rem_lt
  rwa [Nat.pow_succ, ← Nat.mul_assoc] at this

/-- What is below the quotient digits found before. -/
theorem subtract_eq :
    subtract b m Y j V q =
      (V % b ^ (j + 1 + m) + q * (b ^ m - Y) * b ^ j) + b ^ (j + 1 + m) * (V / b ^ (j + 1 + m)) := by
  have := mod_add_div V (b ^ (j + 1 + m))
  rw [subtract]
  omega

theorem pow_split (H : Nat) : b ^ (j + 1 + m) * H = b ^ (j + m) * (b * H) := by
  rw [show j + 1 + m = (j + m) + 1 by omega, Nat.pow_succ, Nat.mul_assoc]

theorem Partial.pos (h : Partial b m X Y (j + 1) V) : 0 < Y * b ^ j := by
  have := h.rem_lt
  rw [Nat.pow_succ, ← Nat.mul_assoc] at this
  exact Nat.pos_of_mul_pos_right (zero_lt_of_lt this)

section

variable (hY : Y ≤ b ^ m)
include hY

theorem sub_mul_pow : q * (b ^ m - Y) * b ^ j + q * (Y * b ^ j) = q * b ^ (j + m) := by
  obtain ⟨d, hd⟩ := Nat.exists_eq_add_of_le hY
  rw [hd, Nat.add_sub_cancel_left, Nat.pow_add, hd]
  ring

theorem mul_pow_le : Y * b ^ j ≤ b ^ (j + m) := by
  rw [Nat.pow_add, Nat.mul_comm]
  exact Nat.mul_le_mul_left _ hY

/-- With the right digit, the digit stands on top of what remains. -/
theorem subtract_quotientDigit :
    subtract b m Y j V (quotientDigit b m Y j V) =
      V % b ^ (j + 1 + m) % (Y * b ^ j) +
        b ^ (j + m) * (b * (V / b ^ (j + 1 + m)) + quotientDigit b m Y j V) := by
  have hr := mod_add_div (V % b ^ (j + 1 + m)) (Y * b ^ j)
  have hsb := sub_mul_pow (q := quotientDigit b m Y j V) (j := j) hY
  rw [subtract_eq, pow_split, Nat.mul_add, Nat.mul_comm (b ^ (j + m)) (quotientDigit ..)]
  rw [Nat.mul_comm (Y * b ^ j) (_ / _)] at hr
  simp only [quotientDigit] at hsb ⊢
  omega

theorem subtract_mod (hp : 0 < Y * b ^ j) :
    subtract b m Y j V (quotientDigit b m Y j V) % b ^ (j + m) =
      V % b ^ (j + 1 + m) % (Y * b ^ j) := by
  have := mod_lt (V % b ^ (j + 1 + m)) hp
  have := mul_pow_le (j := j) hY
  rw [subtract_quotientDigit hY, add_mul_mod_self_left, mod_eq_of_lt (by omega)]

theorem subtract_div (hp : 0 < Y * b ^ j) :
    subtract b m Y j V (quotientDigit b m Y j V) / b ^ (j + m) =
      b * (V / b ^ (j + 1 + m)) + quotientDigit b m Y j V := by
  have := mod_lt (V % b ^ (j + 1 + m)) hp
  have := mul_pow_le (j := j) hY
  rw [subtract_quotientDigit hY, add_mul_div_left _ _ (by omega), div_eq_of_lt (by omega),
    Nat.zero_add]

section
variable (h : Partial b m X Y (j + 1) V)
include h

/-- **A step of long division** with the right quotient digit. -/
theorem Partial.step : Partial b m X Y j (subtract b m Y j V (quotientDigit b m Y j V)) := by
  have hp := h.pos
  have hr := mod_add_div (V % b ^ (j + 1 + m)) (Y * b ^ j)
  refine ⟨by rw [subtract_mod hY hp]; exact mod_lt _ hp, ?_⟩
  rw [subtract_mod hY hp, subtract_div hY hp, Nat.mul_add, ← h.total, quotientDigit,
    Nat.pow_succ, ← Nat.mul_assoc Y, Nat.mul_assoc (Y * b ^ j)]
  omega

/-- The digit on top of the remainder is the right quotient digit once it was subtracted. -/
theorem Partial.digit_eq :
    subtract b m Y j V (quotientDigit b m Y j V) / b ^ (j + m) % b = quotientDigit b m Y j V := by
  rw [subtract_div hY (h.pos), mul_add_mod, mod_eq_of_lt (quotientDigit_lt h)]

/-- What was subtracted too often is missing on top. -/
theorem Partial.digit_lt (hq : quotientDigit b m Y j V < q) :
    subtract b m Y j V q / b ^ (j + m) % b < q := by
  have hp := h.pos
  have hpw : 0 < b ^ (j + m) := hp.trans_le (mul_pow_le hY)
  have hlt : V % b ^ (j + 1 + m) < q * (Y * b ^ j) := (Nat.div_lt_iff_lt_mul hp).1 hq
  have hsb := sub_mul_pow (q := q) (j := j) hY
  rw [subtract_eq, pow_split, add_mul_div_left _ _ hpw, add_mul_mod_self_left]
  refine (mod_le _ _).trans_lt ((Nat.div_lt_iff_lt_mul hpw).2 ?_)
  omega

/-- Nothing is carried beyond the quotient digits found before. -/
theorem Partial.subtract_lt {H : Nat} (hq : quotientDigit b m Y j V ≤ q)
    (hqb : q < b) (hV : V < b ^ (j + 1 + m) * H) :
    subtract b m Y j V q < b ^ (j + 1 + m) * H := by
  have hp := h.pos
  have hlt : V % b ^ (j + 1 + m) < (q + 1) * (Y * b ^ j) :=
    (Nat.div_lt_iff_lt_mul hp).1 (lt_succ_of_le hq)
  have hsb := sub_mul_pow (q := q) (j := j) hY
  have hle := mul_pow_le (j := j) hY
  have hl : V % b ^ (j + 1 + m) + q * (b ^ m - Y) * b ^ j < b ^ (j + 1 + m) := by
    have : (q + 1) * b ^ (j + m) ≤ b * b ^ (j + m) := Nat.mul_le_mul_right _ hqb
    rw [← Nat.pow_succ', succ_eq_add_one, show j + m + 1 = j + 1 + m by omega,
      Nat.add_mul] at this
    rw [Nat.add_mul] at hlt
    omega
  calc subtract b m Y j V q < b ^ (j + 1 + m) * (V / b ^ (j + 1 + m) + 1) := by
        rw [subtract_eq, Nat.mul_add]
        omega
    _ ≤ b ^ (j + 1 + m) * H := Nat.mul_le_mul_left _ (Nat.div_lt_of_lt_mul hV)

end

end

/-- The leading digit of the remainder is at most that of the divisor. -/
theorem Partial.leading_le {t : Nat} (h : Partial b m X Y (j + 1) V) (hm : 0 < m)
    (ht : Y < (t + 1) * b ^ (m - 1)) : V % b ^ (j + 1 + m) / b ^ (j + m) ≤ t := by
  refine Nat.le_of_lt_succ (Nat.div_lt_of_lt_mul (h.rem_lt.trans_le ?_))
  calc Y * b ^ (j + 1) ≤ (t + 1) * b ^ (m - 1) * b ^ (j + 1) := Nat.mul_le_mul_right _ ht.le
    _ = b ^ (j + m) * (t + 1) := by
      rw [Nat.mul_assoc, ← Nat.pow_add, Nat.mul_comm, show m - 1 + (j + 1) = j + m by omega]

/-- A unit of `d` digits is one digit of the power of the base. -/
theorem partial_pow {d : Nat} : Partial (b ^ d) m X Y j V ↔ Partial b (d * m) X Y (d * j) V := by
  have hp : (b ^ d) ^ (j + m) = b ^ (d * j + d * m) := by rw [← Nat.pow_mul, Nat.mul_add]
  constructor <;> rintro ⟨h1, h2⟩
  · rw [hp, ← Nat.pow_mul] at h1 h2
    exact ⟨h1, h2⟩
  · rw [← hp, Nat.pow_mul] at h1 h2
    exact ⟨h1, h2⟩

/-! ## The estimate -/

/-- The quotient of the leading digits of the remainder by the top digit of the divisor. -/
theorem quotient_le_estimate {R t : Nat} (ht : 0 < t) (hm : 0 < m) (hY : t * b ^ (m - 1) ≤ Y)
    (hb : 0 < b) : R / (Y * b ^ j) ≤ R / b ^ (j + m - 1) / t := by
  rw [Nat.le_div_iff_mul_le ht, Nat.le_div_iff_mul_le (Nat.pow_pos hb)]
  calc R / (Y * b ^ j) * t * b ^ (j + m - 1)
      = R / (Y * b ^ j) * (t * b ^ (m - 1) * b ^ j) := by
        rw [show j + m - 1 = (m - 1) + j by omega, Nat.pow_add]
        ring
    _ ≤ R / (Y * b ^ j) * (Y * b ^ j) := Nat.mul_le_mul_left _ (Nat.mul_le_mul_right _ hY)
    _ ≤ R := div_mul_le_self ..

/-- Dropping the lowest bit of both numbers does not make a quotient smaller. -/
theorem div_le_half_div_half {n t : Nat} (ht : 1 < t) : n / t ≤ n / 2 / (t / 2) := by
  rw [Nat.le_div_iff_mul_le (by omega)]
  have h : n / t * (t / 2 * 2) ≤ n / t * t := Nat.mul_le_mul_left _ (div_mul_le_self ..)
  have := div_mul_le_self n t
  rw [← Nat.mul_assoc] at h
  omega

end LongDivision
