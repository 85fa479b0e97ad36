import Mathlib.Data.Nat.Prime.Basic
import Mathlib.Tactic.Linarith
import Mathlib.Tactic.Positivity
import Mathlib.Tactic.Ring

/-!
# Division by a constant as a multiplication

A divisor `d` and a scale `P` have the multiplier `P / d + 1`, which exceeds `P / d` by
`excess d P / d`. Multiplying by it and dividing by the scale gives the quotient by `d` rounded down
(`multiplier_mul_div`, `neg_multiplier_mul_div`), as long as the excess is small against the scale. `critical d N` is the
dividend up to `N` for which that is hardest: if it passes, all dividends up to `N` do
(`excess_lt_of_le`), and a divisor of the scale passes anyway (`excess_le_of_dvd`).

The first power of two that passes is not large: as long as `2 ^ k` does not pass, twice it still
has quotients of `w + 1` bits (`multiplier_lt`, `div_critical_lt`).
-/

namespace MagicDivision

open Nat

variable {d P N n u k w : ℕ}

/-! ## The multiplier -/

def multiplier (d P : ℕ) : ℕ := P / d + 1

/-- What the multiple of the divisor exceeds the scale by. -/
def excess (d P : ℕ) : ℕ := d - P % d

theorem multiplier_mul (hd : 0 < d) : multiplier d P * d = P + excess d P := by
  have hdv := div_add_mod P d
  have hm := mod_lt P hd
  rw [multiplier, excess, Nat.add_mul, Nat.mul_comm (P / d)]
  omega

theorem excess_pos (hd : 0 < d) : 0 < excess d P := by
  have hm := mod_lt P hd
  rw [excess]
  omega

theorem excess_le : excess d P ≤ d := by
  rw [excess]
  omega

/-! ## Quotients -/

/-- The product with the multiplier, scaled by the divisor. -/
theorem multiplier_mul_mul (hd : 0 < d) :
    multiplier d P * n * d = n / d * P * d + n % d * P + n * excess d P := by
  have hdv := div_add_mod n d
  have hm := multiplier_mul (P := P) hd
  calc multiplier d P * n * d = multiplier d P * d * n := by ring
    _ = n * P + n * excess d P := by rw [hm]; ring
    _ = (d * (n / d) + n % d) * P + n * excess d P := by rw [hdv]
    _ = n / d * P * d + n % d * P + n * excess d P := by ring

/-- **The quotient** of a dividend for which the excess is small. -/
theorem multiplier_mul_div (hd : 0 < d) (h : n * excess d P < (d - n % d) * P) :
    multiplier d P * n / P = n / d := by
  have hm := multiplier_mul_mul (P := P) (n := n) hd
  have hmd := mod_lt n hd
  apply Nat.div_eq_of_lt_le
  · apply Nat.le_of_mul_le_mul_right _ hd
    omega
  apply Nat.lt_of_mul_lt_mul_right
  have hsp : (d - n % d) * P + n % d * P = d * P := by
    rw [← Nat.add_mul, Nat.sub_add_cancel hmd.le]
  calc multiplier d P * n * d = n / d * P * d + n % d * P + n * excess d P := hm
    _ < n / d * P * d + d * P := by omega
    _ = (n / d + 1) * P * d := by ring

/-- **The quotient of a negative number** is one less than what rounding towards zero gives. -/
theorem neg_multiplier_mul_div (hd : 0 < d) (hP : 0 < P) (hn : 0 < n)
    (h : n * excess d P ≤ (d - n % d) * P) :
    (-(multiplier d P * n : ℤ)) / P = -((n / d : ℕ) : ℤ) - 1 := by
  have hm := multiplier_mul_mul (P := P) (n := n) hd
  have hmd := mod_lt n hd
  have hsp : (d - n % d) * P + n % d * P = d * P := by
    rw [← Nat.add_mul, Nat.sub_add_cancel hmd.le]
  have hle : multiplier d P * n ≤ (n / d + 1) * P := by
    apply Nat.le_of_mul_le_mul_right _ hd
    calc multiplier d P * n * d = n / d * P * d + n % d * P + n * excess d P := hm
      _ ≤ n / d * P * d + d * P := by omega
      _ = (n / d + 1) * P * d := by ring
  have hlt : n / d * P < multiplier d P * n := by
    apply Nat.lt_of_mul_lt_mul_right (a := d)
    have hp : 0 < n * excess d P := Nat.mul_pos hn (excess_pos hd)
    omega
  have hP' : (0 : ℤ) < P := by omega
  have hle' : ((multiplier d P * n : ℕ) : ℤ) ≤ ((n / d + 1) * P : ℕ) := by omega
  have hlt' : ((n / d * P : ℕ) : ℤ) < (multiplier d P * n : ℕ) := by omega
  apply le_antisymm
  · apply Int.le_of_lt_add_one
    rw [Int.ediv_lt_iff_lt_mul hP']
    push_cast
    linarith
  · rw [Int.le_ediv_iff_mul_le hP']
    push_cast
    linarith

/-! ## Dividends for which the excess is small -/

/-- The greatest number up to `N` that is one less than a multiple of `d`. -/
def critical (d N : ℕ) : ℕ := N - (N + 1) % d

theorem critical_le : critical d N ≤ N := sub_le _ _

/-- There is such a number if `d` is not too large. -/
theorem critical_add_one (hd : 0 < d) (hN : d ≤ N + 1) :
    critical d N + 1 = d * ((N + 1) / d) ∧ d ≤ critical d N + 1 ∧ N < critical d N + d := by
  have hdv := div_add_mod (N + 1) d
  have hm := mod_lt (N + 1) hd
  have hge : d * 1 ≤ d * ((N + 1) / d) :=
    Nat.mul_le_mul_left d ((Nat.le_div_iff_mul_le hd).mpr (by omega))
  rw [critical]
  omega

/-- **The critical dividend decides** for all dividends up to `N`. -/
theorem excess_lt_of_le (hd : 0 < d) (hN : d ≤ N + 1) (h : critical d N * excess d P < P)
    (hn : n ≤ N) : n * excess d P < (d - n % d) * P := by
  obtain ⟨hm, hge, hlt⟩ := critical_add_one hd hN
  have hmd := mod_lt n hd
  rcases le_or_gt n (critical d N) with hle | hgt
  · calc n * excess d P ≤ critical d N * excess d P := Nat.mul_le_mul_right _ hle
      _ < 1 * P := by omega
      _ ≤ (d - n % d) * P := Nat.mul_le_mul_right _ (by omega)
  obtain ⟨j, rfl⟩ := Nat.exists_eq_add_of_lt hgt
  have hr : (critical d N + j + 1) % d = j := by
    rw [show critical d N + j + 1 = j + d * ((N + 1) / d) by omega, add_mul_mod_self_left,
      mod_eq_of_lt (by omega)]
  have hsm : (j + 1) * excess d P ≤ critical d N * excess d P := Nat.mul_le_mul_right _ (by omega)
  calc (critical d N + j + 1) * excess d P
      = critical d N * excess d P + (j + 1) * excess d P := by ring
    _ < 2 * P := by omega
    _ ≤ (d - (critical d N + j + 1) % d) * P := by
      apply Nat.mul_le_mul_right
      rw [hr]
      omega

/-- A divisor of the scale. -/
theorem excess_le_of_dvd (hd : 0 < d) (hu : 0 < u) :
    n * excess d (n * u) ≤ (d - n % d) * (n * u) := by
  have hm := mod_lt n hd
  have hm' := mod_lt (n * u) hd
  have hdv : d ∣ (d - n % d) * u + n * u % d := by
    apply (Nat.dvd_add_iff_left (dvd_sub_mod (n * u))).mpr
    have hsm : (d - n % d) * u + n * u % d + (n * u - n * u % d) = (d + d * (n / d)) * u := by
      have hdi := div_add_mod n d
      have hle := mod_le (n * u) d
      calc (d - n % d) * u + n * u % d + (n * u - n * u % d) = (d - n % d) * u + n * u := by omega
        _ = (d - n % d + (d * (n / d) + n % d)) * u := by rw [hdi]; ring
        _ = (d + d * (n / d)) * u := by
          congr 1
          omega
    rw [hsm]
    exact ⟨(1 + n / d) * u, by ring⟩
  have hp : 0 < (d - n % d) * u := Nat.mul_pos (by omega) hu
  have hle := le_of_dvd (by omega) hdv
  calc n * excess d (n * u) ≤ n * ((d - n % d) * u) := by
        apply Nat.mul_le_mul_left
        rw [excess]
        omega
    _ = (d - n % d) * (n * u) := by ring

/-! ## Powers of two as scales -/

theorem le_of_not_small (hd : d ≤ 2 ^ w) (hN : N ≤ 2 ^ w)
    (h : 2 ^ k ≤ critical d N * excess d (2 ^ k)) : k ≤ 2 * w := by
  apply (Nat.pow_le_pow_iff_right (a := 2) (by omega)).mp
  calc 2 ^ k ≤ critical d N * excess d (2 ^ k) := h
    _ ≤ 2 ^ w * 2 ^ w := Nat.mul_le_mul (critical_le.trans hN) (excess_le.trans hd)
    _ = 2 ^ (2 * w) := by rw [← Nat.pow_add, Nat.two_mul]

/-- The excess is the whole divisor only if that is a power of two. -/
theorem excess_lt_of_coprime (hd : 2 ≤ d) (h : Nat.Coprime d 2) : excess d (2 ^ k) < d := by
  have hm := mod_lt (2 ^ k) (show 0 < d by omega)
  have hne : 2 ^ k % d ≠ 0 := by
    intro hz
    have ho := Coprime.eq_one_of_dvd (h.pow_right k) (dvd_of_mod_eq_zero hz)
    omega
  rw [excess]
  omega

/-- **The next multiplier fits in a word**. -/
theorem multiplier_lt (hd2 : 2 ≤ d) (hd : d ≤ 2 ^ w) (hN : N ≤ 2 ^ w) (hdN : d ≤ N + 1)
    (hw : 0 < w) (h : 2 ^ k ≤ critical d N * excess d (2 ^ k)) :
    multiplier d (2 ^ (k + 1)) < 2 ^ (w + 1) := by
  have hp : 0 < d := by omega
  have hcr := critical_le (d := d) (N := N)
  have hb : critical d N * excess d (2 ^ k) ≤ (2 ^ w - 1) * d := by
    rcases Nat.lt_or_ge (critical d N) (2 ^ w) with hlt | hge
    · exact Nat.mul_le_mul (by omega) excess_le
    -- The divisor divides an odd number.
    have heq : critical d N = 2 ^ w := by omega
    obtain ⟨hm, -, -⟩ := critical_add_one hp hdN
    have hc : Nat.Coprime d 2 := by
      have ho : Nat.Coprime (2 ^ w + 1) 2 := by
        rw [coprime_two_right, odd_iff]
        have he : 2 ^ w % 2 = 0 := mod_eq_zero_of_dvd (dvd_pow_self 2 hw.ne')
        omega
      rw [← heq, hm] at ho
      exact ho.coprime_dvd_left (Nat.dvd_mul_right _ _)
    have hex := excess_lt_of_coprime (k := k) hd2 hc
    calc critical d N * excess d (2 ^ k) ≤ 2 ^ w * (d - 1) := by
          rw [heq]
          exact Nat.mul_le_mul_left _ (by omega)
      _ = 2 ^ w * d - 2 ^ w := by rw [Nat.mul_sub, Nat.mul_one]
      _ ≤ 2 ^ w * d - d := by omega
      _ = (2 ^ w - 1) * d := by rw [Nat.sub_mul, Nat.one_mul]
  have hdv : 2 ^ (k + 1) / d ≤ 2 * (2 ^ w - 1) := by
    rw [Nat.div_le_iff_le_mul hp]
    have hm : 2 * (2 ^ w - 1) * d = 2 * ((2 ^ w - 1) * d) := Nat.mul_assoc _ _ _
    omega
  have hpw : 2 ^ (w + 1) = 2 * 2 ^ w := by rw [Nat.pow_succ, Nat.mul_comm]
  have hw' := Nat.one_le_two_pow (n := w)
  rw [multiplier]
  omega

/-- The quotient by the critical dividend fits, too. -/
theorem div_critical_lt (hd2 : 2 ≤ d) (hd : d ≤ 2 ^ w) (hN : N ≤ 2 ^ w) (hdN : d ≤ N + 1)
    (hw : 2 ≤ w) (h : 2 ^ k ≤ critical d N * excess d (2 ^ k)) :
    2 ^ (k + 1) / critical d N < 2 ^ (w + 1) := by
  have hp : 0 < d := by omega
  obtain ⟨hm, hge, hlt⟩ := critical_add_one hp hdN
  have hpw' : 2 ^ (w + 1) = 2 * 2 ^ w := by rw [Nat.pow_succ, Nat.mul_comm]
  have he := excess_le (d := d) (P := 2 ^ k)
  rw [Nat.div_lt_iff_lt_mul (by omega)]
  rcases Nat.lt_or_ge d (2 ^ w) with hlt' | hge'
  · calc 2 ^ (k + 1) ≤ 2 * (critical d N * excess d (2 ^ k)) := by omega
      _ ≤ 2 * (critical d N * (2 ^ w - 1)) := by
        apply Nat.mul_le_mul_left
        apply Nat.mul_le_mul_left
        omega
      _ = critical d N * 2 ^ (w + 1) - 2 * critical d N := by
        rw [hpw', Nat.mul_sub, Nat.mul_sub]
        ring_nf
      _ < critical d N * 2 ^ (w + 1) := by
        have : 0 < critical d N * 2 ^ (w + 1) := Nat.mul_pos (by omega) (by positivity)
        omega
      _ = 2 ^ (w + 1) * critical d N := Nat.mul_comm _ _
  · -- The greatest divisor is a power of two, and the critical dividend is one less than it.
    have hf : 2 ^ 2 ≤ 2 ^ w := Nat.pow_le_pow_right (by omega) hw
    have hq : (N + 1) / d < 2 := by
      rw [Nat.div_lt_iff_lt_mul hp]
      omega
    have hc : critical d N = 2 ^ w - 1 := by
      have hle : d * ((N + 1) / d) ≤ d * 1 := Nat.mul_le_mul_left d (by omega)
      omega
    have hk : k < 2 * w := by
      apply (Nat.pow_lt_pow_iff_right (a := 2) (by omega)).mp
      calc 2 ^ k ≤ (2 ^ w - 1) * 2 ^ w := by
            rw [← hc]
            exact h.trans (Nat.mul_le_mul_left _ (by omega))
        _ < 2 ^ w * 2 ^ w := Nat.mul_lt_mul_of_pos_right (by omega) (by omega)
        _ = 2 ^ (2 * w) := by rw [← Nat.pow_add, Nat.two_mul]
    calc 2 ^ (k + 1) ≤ 2 ^ (2 * w) := Nat.pow_le_pow_right (by omega) hk
      _ = 2 ^ w * 2 ^ w := by rw [← Nat.pow_add, Nat.two_mul]
      _ < 2 ^ w * (2 * (2 ^ w - 1)) := Nat.mul_lt_mul_of_pos_left (by omega) (by omega)
      _ = 2 ^ (w + 1) * critical d N := by
        rw [hc, hpw']
        ring

end MagicDivision
