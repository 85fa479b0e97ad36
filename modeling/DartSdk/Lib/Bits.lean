import Mathlib.Tactic.Ring

/-!
# Masks and shifts as arithmetic

Masks, shifts and disjoint `or`s on natural numbers in terms of `/`, `%`, `*` and `+`, the form
`omega` decides.
-/

namespace Bits

open Nat

theorem and_mask (x n k : Nat) : x &&& ((2 ^ n - 1) * 2 ^ k) = x / 2 ^ k % 2 ^ n * 2 ^ k := by
  apply eq_of_testBit_eq
  intro j
  rw [testBit_and, testBit_mul_two_pow, testBit_mul_two_pow, testBit_mod_two_pow,
    testBit_div_two_pow, testBit_two_pow_sub_one]
  by_cases hj : k ≤ j
  · simp [hj, Bool.and_comm]
  · simp [hj]

theorem and_low (x n : Nat) : x &&& (2 ^ n - 1) = x % 2 ^ n := and_two_pow_sub_one_eq_mod x n

/-- The bits of `b` below `k` and those of `a` from `k` on do not meet. -/
theorem or_disjoint {b k : Nat} (a : Nat) (h : b < 2 ^ k := by omega) :
    a * 2 ^ k ||| b = a * 2 ^ k + b := by
  rw [Nat.mul_comm, two_pow_add_eq_or_of_lt h]

theorem shiftRight (x n : Nat) : x >>> n = x / 2 ^ n := shiftRight_eq_div_pow x n

theorem shiftLeft (x n : Nat) : x <<< n = x * 2 ^ n := shiftLeft_eq x n

theorem forall_uint8 {P : UInt8 → Prop} : (∀ n : Fin 256, P (UInt8.ofNat n)) ↔ ∀ b, P b := by
  refine ⟨fun h b => ?_, fun h n => h _⟩
  have hb := h ⟨b.toNat, b.toNat_lt⟩
  rwa [show UInt8.ofNat (⟨b.toNat, b.toNat_lt⟩ : Fin 256) = b from UInt8.ofNat_toNat] at hb

/-- A property of bytes is decided byte by byte. -/
instance decidableForall {P : UInt8 → Prop} [DecidablePred P] : Decidable (∀ b, P b) :=
  decidable_of_iff _ forall_uint8

end Bits
