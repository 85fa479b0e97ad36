import Mathlib.Algebra.Order.Ring.Int
import Mathlib.Data.Nat.Bitwise

/-!
# Numbers in groups of seven bits

A number is written as bytes with seven of its bits each, lowest first, and read back by adding each
group above the bits before. What a format has to say about one byte is in `Format`: how the last
byte is read, and how one is read that another follows. `Format.read` is the round trip, with a
bound on the number of bytes: no group starts above the width of the type.
-/

namespace SevenBits

open Nat

variable {ε : Type} {w r s k : Nat} {v : Int} {bytes : List UInt8}

/-- Bits above those of `r` are added. -/
theorem or_shiftLeft_mod (hr : r < 2 ^ s) (x : Nat) :
    r ||| (x <<< s) % 2 ^ (s + k) = r + 2 ^ s * (x % 2 ^ k) := by
  rw [shiftLeft_eq, Nat.mul_comm, Nat.pow_add, mul_mod_mul_left, Nat.or_comm,
    ← two_pow_add_eq_or_of_lt hr, Nat.add_comm]

theorem toNat_ofNat_lt {n : Nat} (h : n < 256) : (UInt8.ofNat n).toNat = n := by
  rw [UInt8.toNat_ofNat']
  exact mod_eq_of_lt h

theorem two_pow_pos_int (k : Nat) : (0 : Int) < 2 ^ k := Int.pow_pos (by decide)

theorem pow_eq (hk : 7 ≤ k) : (2 : Int) ^ k = 128 * 2 ^ (k - 7) := by
  rw [show k = 7 + (k - 7) by omega, Int.pow_add, Nat.add_sub_cancel_left]
  rfl

/-- A group of seven bits is added whole. -/
theorem or_group (hr : r < 2 ^ s) (hk : 7 < k) :
    r ||| ((v % 128).toNat <<< s) % 2 ^ (s + k) = r + 2 ^ s * (v % 128).toNat := by
  have hp := Nat.pow_le_pow_right (show 0 < 2 by decide) hk.le
  rw [or_shiftLeft_mod hr, mod_eq_of_lt (by omega)]

theorem group_lt (hr : r < 2 ^ s) : r + 2 ^ s * (v % 128).toNat < 2 ^ (s + 7) := by
  have hl : (v % 128).toNat < 2 ^ 7 := by omega
  have := Nat.mul_le_mul_left (2 ^ s) (Nat.succ_le_of_lt hl)
  rw [mul_succ] at this
  rw [Nat.pow_add]
  omega

/-- The lowest group and the bits above it. -/
theorem emod_two_pow (hk : 7 ≤ k) :
    (v % 2 ^ k).toNat = (v % 128).toNat + 128 * (v / 128 % 2 ^ (k - 7)).toNat := by
  have h1 := Int.emod_nonneg (v / 128) (two_pow_pos_int (k - 7)).ne'
  have h2 := Int.emod_lt_of_pos (v / 128) (two_pow_pos_int (k - 7))
  have hsp : v % 2 ^ k = v % 128 + 128 * (v / 128 % 2 ^ (k - 7)) := by
    have h3 := Int.emod_add_mul_ediv (v / 128) (2 ^ (k - 7))
    have hp := pow_eq hk
    refine ((Int.ediv_emod_unique (q := v / 128 / 2 ^ (k - 7)) (two_pow_pos_int k)).2
      ⟨?_, by omega, by omega⟩).2
    rw [hp, Int.mul_assoc]
    omega
  omega

/-- A format of the numbers `In w`. `read r s` reads the bits from `s` on, with those before in `r`;
`In k` are the numbers of which `k` bits remain to be read. -/
structure Format (w : Nat) (In : Nat → Int → Prop) (Last : Int → Prop) (encode : Int → List UInt8)
    (read : Nat → Nat → List UInt8 → Except ε (Nat × List UInt8)) : Prop where
  last : ∀ {r s k v} bytes, s + k = w → 0 < k → r < 2 ^ s → In k v → Last v →
    (encode v).length = 1 ∧
      read r s (encode v ++ bytes) = .ok (r + 2 ^ s * (v % 2 ^ k).toNat, bytes)
  more : ∀ {r s k v} bytes, s + k = w → r < 2 ^ s → In k v → ¬ Last v →
    7 < k ∧ In (k - 7) (v / 128) ∧ (encode v).length = (encode (v / 128)).length + 1 ∧
      read r s (encode v ++ bytes) =
        read (r + 2 ^ s * (v % 128).toNat) (s + 7) (encode (v / 128) ++ bytes)
  last_of_fixed : ∀ {v}, v.natAbs ≤ (v / 128).natAbs → Last v

variable {In : Nat → Int → Prop} {Last : Int → Prop} {encode : Int → List UInt8}
  {read : Nat → Nat → List UInt8 → Except ε (Nat × List UInt8)}

/-- **A number is read back**, and no group starts at or above the width. -/
theorem Format.read_encode (h : Format w In Last encode read) (bytes : List UInt8)
    (hw : s + k = w) (hk : 0 < k) (hr : r < 2 ^ s) (hv : In k v) :
    read r s (encode v ++ bytes) = .ok (r + 2 ^ s * (v % 2 ^ k).toNat, bytes) ∧
      7 * ((encode v).length - 1) < k := by
  induction hn : v.natAbs using Nat.strong_induction_on generalizing v r s k with
  | _ n ih =>
  by_cases hl : Last v
  · obtain ⟨hln, hrd⟩ := h.last bytes hw hk hr hv hl
    exact ⟨hrd, by omega⟩
  obtain ⟨h7, hv', hln, hrd⟩ := h.more bytes hw hr hv hl
  have hlt : (v / 128).natAbs < n := by
    rw [← hn, ← not_le]
    exact mt h.last_of_fixed hl
  obtain ⟨hih, hb⟩ := ih _ hlt (show s + 7 + (k - 7) = w by omega) (by omega) (group_lt hr) hv'
    rfl
  refine ⟨?_, by omega⟩
  rw [hrd, hih, emod_two_pow (v := v) (by omega), Nat.pow_add, Nat.mul_add, ← Nat.mul_assoc,
    Nat.add_assoc]

end SevenBits
