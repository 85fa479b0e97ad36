import Mathlib.Algebra.Order.Ring.Int
import Mathlib.Data.Int.Bitwise

/-!
# Signed integers of a width

* `InWidth n x`: `x` has `n` bits and a sign.
* `InWidth.bitwise`: a bitwise operation keeps the width of its operands.
* `land_bounds`: a mask that is not negative bounds what it masks.
* `mul_two_pow_le`, `ediv_two_pow_le`: shifts are monotone in the shifted value, and monotone or
  antitone in the count by its sign.
-/

namespace TwosComplement

open Int

/-- The integers of `n` bits and a sign. -/
def InWidth (n : Nat) (x : Int) : Prop := -2 ^ n ≤ x ∧ x < 2 ^ n

variable {n : Nat} {x y l u : Int}

theorem inWidth_zero : InWidth 0 x ↔ x = -1 ∨ x = 0 := by
  rw [InWidth]
  omega

theorem inWidth_bit {b : Bool} : InWidth (n + 1) (Int.bit b x) ↔ InWidth n x := by
  rw [InWidth, InWidth, bit_val, Int.pow_succ]
  cases b with
  | true => rw [cond_true]; omega
  | false => rw [cond_false]; omega

theorem InWidth.mono {m : Nat} (h : InWidth n x) (hm : n ≤ m) : InWidth m x := by
  have : (2 : Int) ^ n ≤ 2 ^ m := pow_le_pow_right₀ (by decide) hm
  have := h.1
  have := h.2
  rw [InWidth]
  omega

/-- What lies between two integers of a width has that width. -/
theorem InWidth.between (hl : InWidth n l) (hu : InWidth n u) (h1 : l ≤ x) (h2 : x ≤ u) :
    InWidth n x := ⟨hl.1.trans h1, h2.trans_lt hu.2⟩

/-! ## Bitwise operations -/

theorem neg_one_eq : (-1 : Int) = Int.negSucc 0 := rfl

theorem bitwise_zero (f : Bool → Bool → Bool) (hx : InWidth 0 x) (hy : InWidth 0 y) :
    InWidth 0 (Int.bitwise f x y) := by
  have h : ∀ g : Bool → Bool → Bool, InWidth 0 (Int.natBitwise g 0 0) := by
    intro g
    rw [Int.natBitwise, Nat.bitwise_zero, Nat.bitwise_zero, inWidth_zero]
    cases g false false with
    | true => exact .inl rfl
    | false => exact .inr rfl
  rw [inWidth_zero, neg_one_eq] at hx hy
  rcases hx with rfl | rfl <;> rcases hy with rfl | rfl
  · exact h fun a b => f (!a) (!b)
  · exact h fun a b => f (!a) b
  · exact h fun a b => f a (!b)
  · exact h f

/-- **A bitwise operation keeps the width of its operands.** -/
theorem InWidth.bitwise (f : Bool → Bool → Bool) (hx : InWidth n x) (hy : InWidth n y) :
    InWidth n (Int.bitwise f x y) := by
  induction n generalizing x y with
  | zero => exact bitwise_zero f hx hy
  | succ n ih =>
    rw [← bit_decomp x, ← bit_decomp y, bitwise_bit, inWidth_bit]
    rw [← bit_decomp x, inWidth_bit] at hx
    rw [← bit_decomp y, inWidth_bit] at hy
    exact ih hx hy

theorem land_comm (x y : Int) : x.land y = y.land x := by
  cases x with
  | ofNat a =>
    cases y with
    | ofNat b => exact congrArg Int.ofNat (Nat.and_comm a b)
    | negSucc b => rfl
  | negSucc a =>
    cases y with
    | ofNat b => rfl
    | negSucc b => exact congrArg Int.negSucc (Nat.or_comm a b)

theorem land_bounds (hx : InWidth n x) (hy : InWidth n y) (h0 : 0 ≤ y) :
    0 ≤ x.land y ∧ x.land y ≤ y := by
  induction n generalizing x y with
  | zero =>
    rw [inWidth_zero, neg_one_eq] at hx
    rw [inWidth_zero] at hy
    obtain rfl : y = 0 := by omega
    have h : x.land 0 = 0 := by
      rcases hx with rfl | rfl
      · exact congrArg Int.ofNat (Nat.bitwise_zero)
      · rfl
    rw [h]
    exact ⟨le_refl 0, le_refl 0⟩
  | succ n ih =>
    rw [← bit_decomp x, inWidth_bit] at hx
    rw [← bit_decomp y, inWidth_bit] at hy
    have hy' := bit_decomp y
    rw [← bit_decomp x, ← hy', land_bit]
    rw [bit_val] at hy'
    have hbt : ∀ b : Bool, 0 ≤ cond b (1 : Int) 0 ∧ cond b (1 : Int) 0 ≤ 1 := by decide
    have ha : cond (x.bodd && y.bodd) (1 : Int) 0 ≤ cond y.bodd 1 0 := by
      cases x.bodd <;> cases y.bodd <;> decide
    have := hbt y.bodd
    have := hbt (x.bodd && y.bodd)
    obtain ⟨h1, h2⟩ := ih hx hy (by omega)
    rw [bit_val, bit_val]
    omega

/-- Bitwise operations that keep a zero sign keep the sign. -/
theorem bitwise_nonneg {f : Bool → Bool → Bool} (hf : f false false = false) (hx : 0 ≤ x)
    (hy : 0 ≤ y) : 0 ≤ Int.bitwise f x y := by
  lift x to Nat using hx
  lift y to Nat using hy
  change 0 ≤ Int.natBitwise f x y
  rw [Int.natBitwise, hf]
  exact natCast_nonneg _

/-! ## Shifts -/

theorem mul_two_pow_le {a b : Nat} (hxy : x ≤ y) (hab : a ≤ b) :
    (0 ≤ y → x * 2 ^ a ≤ y * 2 ^ b) ∧ (x ≤ 0 → x * 2 ^ b ≤ y * 2 ^ a) := by
  have hp : (2 : Int) ^ a ≤ 2 ^ b := pow_le_pow_right₀ (by decide) hab
  have h0 : (0 : Int) ≤ 2 ^ a := Int.pow_nonneg (by decide)
  constructor
  · intro hy
    exact (Int.mul_le_mul_of_nonneg_right hxy h0).trans (Int.mul_le_mul_of_nonneg_left hp hy)
  · intro hx
    exact (Int.mul_le_mul_of_nonpos_left hx hp).trans (Int.mul_le_mul_of_nonneg_right hxy h0)

theorem ediv_two_pow_le {a b : Nat} (hxy : x ≤ y) (hab : a ≤ b) :
    (0 ≤ y → x / 2 ^ b ≤ y / 2 ^ a) ∧ (x ≤ 0 → x / 2 ^ a ≤ y / 2 ^ b) := by
  have hp : (0 : Int) < 2 ^ a := Int.pow_pos (by decide)
  have hp' : (0 : Int) < 2 ^ b := Int.pow_pos (by decide)
  obtain ⟨k, rfl⟩ := Nat.exists_eq_add_of_le hab
  have hk : (0 : Int) < 2 ^ k := Int.pow_pos (by decide)
  have hd : ∀ z : Int, z / 2 ^ (a + k) = z / 2 ^ a / 2 ^ k := by
    intro z
    rw [Int.pow_add, ediv_ediv_of_nonneg hp.le]
  constructor
  · intro hy
    calc x / 2 ^ (a + k) ≤ y / 2 ^ (a + k) := Int.ediv_le_ediv hp' hxy
      _ = y / 2 ^ a / 2 ^ k := hd y
      _ ≤ y / 2 ^ a := ediv_le_self _ (ediv_nonneg hy hp.le)
  · intro hx
    have hn : x / 2 ^ a ≤ 0 := Int.ediv_nonpos_of_nonpos_of_neg hx hp
    have hm : x / 2 ^ a * 2 ^ k ≤ x / 2 ^ a * 1 := Int.mul_le_mul_of_nonpos_left hn hk
    calc x / 2 ^ a ≤ x / 2 ^ a / 2 ^ k := (Int.le_ediv_iff_mul_le hk).2 (by omega)
      _ = x / 2 ^ (a + k) := (hd x).symm
      _ ≤ y / 2 ^ (a + k) := Int.ediv_le_ediv hp' hxy

end TwosComplement
