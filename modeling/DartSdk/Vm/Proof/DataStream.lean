import DartSdk.Lib.SevenBits
import DartSdk.Vm.DataStream
import Mathlib.Tactic.NormNum
import Mathlib.Tactic.Zify

/-!
# Streams round-trip

* `read_write`, `readRaw_write`: a signed number that fits its type is read back, with the bytes
  that follow it.
* `readLEB128_write`: so is an unsigned number in LEB128.
* `streams_round_trip`: every format, with the shifts that reading makes.
-/

namespace Vm

open SevenBits List Nat

variable {w r s k : Nat} {v : Int} {bytes : List UInt8}

/-- A signed number of `w` bits. -/
def Fits (w : Nat) (v : Int) : Prop := -2 ^ (w - 1) ≤ v ∧ v < 2 ^ (w - 1)

theorem two_pow_le_int {a b : Nat} (h : a ≤ b) : (2 : Int) ^ a ≤ 2 ^ b := by
  exact_mod_cast Nat.pow_le_pow_right (by decide) h

/-- A number that is not in one byte has more than seven bits. -/
theorem Fits.seven_lt (h : Fits k v) (hv : v < -64 ∨ v > 63) : 7 < k := by
  by_contra hk
  have := two_pow_le_int (show k - 1 ≤ 6 by omega)
  have h1 := h.1
  have h2 := h.2
  omega

theorem Fits.div (h : Fits k v) (hk : 7 < k) : Fits (k - 7) (v / 128) := by
  have hp : (2 : Int) ^ (k - 1) = 2 ^ (k - 7 - 1) * 128 := by
    rw [show k - 1 = k - 7 - 1 + 7 by omega, Int.pow_add]
    rfl
  have h1 := h.1
  have h2 := h.2
  rw [hp] at h1 h2
  exact ⟨by omega, by omega⟩

/-- An unsigned number of `w` bits. -/
def FitsUnsigned (w : Nat) (v : Int) : Prop := 0 ≤ v ∧ v < 2 ^ w

theorem FitsUnsigned.more (h : FitsUnsigned k v) (hv : ¬ v ≤ 127) :
    7 < k ∧ FitsUnsigned (k - 7) (v / 128) := by
  have hk : 7 < k := by
    by_contra hk
    have := two_pow_le_int (show k ≤ 7 by omega)
    have h2 := h.2
    omega
  have hp := pow_eq hk.le
  have h1 := h.1
  have h2 := h.2
  exact ⟨hk, by omega, by omega⟩

theorem toNat_emod (h : 0 ≤ v) : (v % 2 ^ k).toNat = v.toNat % 2 ^ k := by
  rw [Int.toNat_emod h (two_pow_pos_int k).le]
  congr 1

/-! ## Reading from the start -/

theorem toSigned_emod (hw : 0 < w) (h : Fits w v) : toSigned w (v % 2 ^ w).toNat = v := by
  have hp : (2 : Int) ^ w = 2 * 2 ^ (w - 1) := by
    rw [show w = w - 1 + 1 by omega, Int.pow_succ, Nat.add_sub_cancel, Int.mul_comm]
  have hn : ((2 ^ (w - 1) : Nat) : Int) = 2 ^ (w - 1) := by push_cast; rfl
  have hps := two_pow_pos_int (w - 1)
  have h1 := h.1
  have h2 := h.2
  rw [toSigned]
  by_cases hv : 0 ≤ v
  · rw [Int.emod_eq_of_lt hv (by omega), if_pos (by omega)]
    omega
  · rw [← Int.add_emod_right, Int.emod_eq_of_lt (by omega) (by omega), if_neg (by omega)]
    omega

section
variable {In : Nat → Int → Prop} {Last : Int → Prop} {enc : Int → List UInt8}
  {read : Nat → Nat → List UInt8 → Except Failure (Nat × List UInt8)}

theorem read_from_start (bytes : List UInt8) (h : Format w In Last enc read) (hw : 0 < w) (hv : In w v) :
    read 0 0 (enc v ++ bytes) = .ok ((v % 2 ^ w).toNat, bytes) ∧ 7 * ((enc v).length - 1) < w := by
  simpa using h.read_encode bytes (Nat.zero_add w) hw Nat.one_pos hv

theorem castSigned_read (h : Format w In Last enc read) (hw : 0 < w) (hv : In w v)
    (hf : Fits w v) : castSigned w (read 0 0 (enc v ++ bytes)) = .ok (v, bytes) := by
  rw [(read_from_start bytes h hw hv).1]
  change Except.ok (toSigned w (v % 2 ^ w).toNat, bytes) = _
  rw [toSigned_emod hw hf]

end

theorem emod_natCast {n : Nat} (h : n < 2 ^ w) : ((n : Int) % 2 ^ w).toNat = n := by
  rw [toNat_emod (by omega), Int.toNat_natCast, mod_eq_of_lt h]

theorem fitsUnsigned_natCast {n : Nat} (h : n < 2 ^ w) : FitsUnsigned w n :=
  ⟨by omega, by exact_mod_cast h⟩

/-! ## Signed numbers -/

theorem readFrom_last {ur : Bool} (hr : r < 2 ^ s) (hw : 8 ≤ s + k) (h1 : -64 ≤ v)
    (h2 : v ≤ 63) :
    readFrom ur (s + k) r s (UInt8.ofNat (v + 192).toNat :: bytes) =
      .ok (r + 2 ^ s * (v % 2 ^ k).toNat, bytes) := by
  have hb : (UInt8.ofNat (v + 192).toNat).toNat = (v + 192).toNat := toNat_ofNat_lt (by omega)
  have hp : 256 ≤ 2 ^ (s + k) := Nat.pow_le_pow_right (by decide : 0 < 2) hw
  have hvl : ((v + 192).toNat + (2 ^ (s + k) - 192)) % 2 ^ k = (v % 2 ^ k).toNat := by
    zify
    rw [cast_sub (by omega), Int.toNat_of_nonneg (by omega),
      Int.toNat_of_nonneg (Int.emod_nonneg _ (two_pow_pos_int k).ne')]
    have hd : (2 : Int) ^ k ∣ 2 ^ (s + k) := Dvd.intro_left (2 ^ s) (Int.pow_add ..).symm
    rw [show v + 192 + (((2 ^ (s + k) : Nat) : Int) - (192 : Nat)) = v + 2 ^ (s + k) by
      push_cast; omega]
    rw [Int.add_emod, Int.emod_eq_zero_of_dvd hd, Int.add_zero, Int.emod_emod]
  rw [readFrom, hb, if_pos (by simp only [kMaxUnsignedDataPerByte]; omega), kEndByteMarker,
    or_shiftLeft_mod hr, mod_mod_of_dvd _ (Nat.pow_dvd_pow 2 (Nat.le_add_left k s)), hvl]

theorem write_format (ur : Bool) (hw : 8 ≤ w) :
    Format w Fits (fun v => -64 ≤ v ∧ v ≤ 63) write (readFrom ur w) where
  last {r s k v} bytes hs _ hr _ hl := by
    subst hs
    rw [write, if_neg (by simp only [kMinDataPerByte, kMaxDataPerByte]; omega)]
    exact ⟨rfl, readFrom_last hr hw hl.1 hl.2⟩
  more {r s k v} bytes hs hr hv hl := by
    subst hs
    have hk := hv.seven_lt (by omega)
    have hb : (UInt8.ofNat (v % 2 ^ 7).toNat).toNat = (v % 128).toNat := toNat_ofNat_lt (by omega)
    rw [write, if_pos (by simp only [kMinDataPerByte, kMaxDataPerByte]; omega), cons_append,
      readFrom, kDataBitsPerByte, hb, if_neg (by simp only [kMaxUnsignedDataPerByte]; omega),
      if_neg (fun h => by simp at h; omega), or_group hr hk]
    exact ⟨hk, hv.div hk, rfl, rfl⟩
  last_of_fixed h := by omega

theorem readSigned_write {ur : Bool} (hw : 8 ≤ w) (h : Fits w v) :
    readSigned ur w (write v ++ bytes) = .ok (v, bytes) := by
  rw [readSigned]
  exact castSigned_read (write_format ur hw) (by omega) h h

theorem readRaw_write (hw : 8 ≤ w) (h : Fits w v) : readRaw w (write v ++ bytes) = .ok (v, bytes) :=
  readSigned_write hw h

theorem read_write (hw : 8 ≤ w) (h : Fits w v) : read w (write v ++ bytes) = .ok (v, bytes) :=
  readSigned_write hw h

theorem length_write_pos (v : Int) : 0 < (write v).length := by
  rw [write]
  split_ifs <;> simp

/-! ## LEB128 -/

theorem and_mask (v : Nat) : v &&& kDataByteMask = v % 128 := and_two_pow_sub_one_eq_mod v 7

theorem or_more {v : Nat} (h : v < 128) : v ||| kMoreDataMask = v + 128 := by
  rw [kMoreDataMask, Nat.or_comm, Nat.add_comm]
  exact (two_pow_add_eq_or_of_lt (i := 7) h 1).symm

theorem and_bit {i v : Nat} (h : v < 2 ^ (i + 1)) : v &&& 2 ^ i = 0 ↔ v < 2 ^ i := by
  have hd : v / 2 ^ i < 2 := Nat.div_lt_of_lt_mul (by rwa [← Nat.pow_succ])
  rw [and_two_pow, testBit_eq_decide_div_mod_eq, ← div_eq_zero_iff_lt (Nat.two_pow_pos i)]
  generalize v / 2 ^ i = q at hd
  obtain rfl | rfl : q = 0 ∨ q = 1 := by omega
  all_goals simp

theorem leb128_format : Format w FitsUnsigned (fun v => v ≤ 127) (fun v => writeLEB128 v.toNat)
    (readLEB128From w) where
  last {r s k v} bytes hs hk hr hv hl := by
    subst hs
    have h0 := hv.1
    have hlw : v.toNat % 128 = v.toNat := by omega
    rw [writeLEB128, if_pos (by rw [kDataBitsPerByte]; omega), and_mask, hlw, singleton_append,
      readLEB128From, toNat_ofNat_lt (by omega), if_pos (by omega),
      if_neg (by rw [not_not]; exact (and_bit (i := 7) (by omega)).2 (by omega)), and_mask, hlw,
      or_shiftLeft_mod hr, toNat_emod h0]
    exact ⟨rfl, rfl⟩
  more {r s k v} bytes hs hr hv hl := by
    subst hs
    have h0 := hv.1
    obtain ⟨hk, hd⟩ := hv.more hl
    have hb : (UInt8.ofNat ((v.toNat &&& kDataByteMask) ||| kMoreDataMask)).toNat =
        (v % 128).toNat + 128 := by
      rw [and_mask, or_more (by omega), toNat_ofNat_lt (by omega)]
      omega
    have hlw : (v % 128).toNat + 128 &&& kDataByteMask = (v % 128).toNat := by
      rw [and_mask]
      omega
    have hn : (v / 128).toNat = v.toNat / 128 := by omega
    rw [writeLEB128, if_neg (by rw [kDataBitsPerByte]; omega), cons_append, readLEB128From, hb,
      if_pos (by omega), if_pos (fun h => by have := (and_bit (i := 7) (by omega)).1 h; omega),
      hlw, or_group hr hk, hn]
    exact ⟨hk, hd, rfl, rfl⟩
  last_of_fixed h := by omega

theorem readLEB128_write {v : Nat} (hv : v < 2 ^ w) (hw : 0 < w) :
    readLEB128 w (writeLEB128 v ++ bytes) = .ok (v, bytes) := by
  have h := (read_from_start bytes leb128_format hw (fitsUnsigned_natCast hv)).1
  rwa [emod_natCast hv] at h

theorem length_writeLEB128_pos (v : Nat) : 0 < (writeLEB128 v).length := by
  rw [writeLEB128]
  split_ifs <;> simp

/-! ## SLEB128 -/

theorem sign_iff (h : -64 ≤ v ∧ v ≤ 63) : (v % 128).toNat &&& kSignMask = 0 ↔ 0 ≤ v := by
  rw [kSignMask, show 64 = 2 ^ 6 from rfl, and_bit (by omega)]
  omega

theorem last_iff : ((v < 0 ∧ v / 2 ^ kDataBitsPerByte = -1 ∧
      (v % 2 ^ kDataBitsPerByte).toNat &&& kSignMask ≠ 0) ∨ (0 ≤ v ∧ v / 2 ^ kDataBitsPerByte = 0 ∧
      (v % 2 ^ kDataBitsPerByte).toNat &&& kSignMask = 0)) ↔ -64 ≤ v ∧ v ≤ 63 := by
  rw [kDataBitsPerByte, kSignMask, show 64 = 2 ^ 6 from rfl, Ne, and_bit (by omega)]
  omega

/-- The last byte, with the sign of the number above it. -/
theorem readSLEB128From_last (hk : 0 < k) (hr : r < 2 ^ s) (h : -64 ≤ v ∧ v ≤ 63) :
    readSLEB128From (s + k) r s (UInt8.ofNat (v % 128).toNat :: bytes) =
      .ok (r + 2 ^ s * (v % 2 ^ k).toNat, bytes) := by
  have hl : (v % 128).toNat &&& kDataByteMask = (v % 128).toNat := by
    rw [and_mask]
    omega
  rw [readSLEB128From, toNat_ofNat_lt (by omega), if_pos (by omega), hl,
    if_neg (by rw [not_not]; exact (and_bit (i := 7) (by omega)).2 (by omega)), kDataBitsPerByte]
  by_cases h7 : 7 < k
  · rw [or_group hr h7, emod_two_pow h7.le]
    by_cases h0 : 0 ≤ v
    · rw [if_neg (fun hs => hs.1 ((sign_iff h).2 h0)), show v / 128 = 0 by omega]
      simp
    rw [if_pos ⟨mt (sign_iff h).1 h0, by omega⟩, Nat.or_comm, show v / 128 = -1 by omega]
    have hp : 2 ^ (s + k) - 2 ^ (s + 7) = 2 ^ (s + 7) * (2 ^ (k - 7) - 1) := by
      rw [Nat.mul_sub, ← Nat.pow_add, Nat.mul_one, show s + 7 + (k - 7) = s + k by omega]
    have ho : (-1 % (2 : Int) ^ (k - 7)).toNat = 2 ^ (k - 7) - 1 := by
      have := two_pow_pos_int (k - 7)
      rw [← Int.add_emod_right, Int.emod_eq_of_lt (by omega) (by omega)]
      have hc : ((2 ^ (k - 7) : Nat) : Int) = 2 ^ (k - 7) := by push_cast; rfl
      omega
    rw [hp, ← two_pow_add_eq_or_of_lt (group_lt hr), ho, Nat.mul_add, Nat.pow_add,
      ← Nat.mul_assoc, ← Nat.add_assoc r, Nat.add_comm (2 ^ s * 2 ^ 7 * _)]
  · rw [if_neg (by omega), or_shiftLeft_mod hr, ← toNat_emod (by omega),
      Int.emod_emod_of_dvd v (by exact_mod_cast Nat.pow_dvd_pow 2 (show k ≤ 7 by omega))]

theorem sleb128_format : Format w Fits (fun v => -64 ≤ v ∧ v ≤ 63) writeSLEB128
    (readSLEB128From w) where
  last {r s k v} bytes hs hk hr _ hl := by
    subst hs
    rw [writeSLEB128, if_pos (last_iff.2 hl), kDataBitsPerByte]
    exact ⟨rfl, readSLEB128From_last hk hr hl⟩
  more {r s k v} bytes hs hr hv hl := by
    subst hs
    have hk := hv.seven_lt (by omega)
    have hlw : (v % 128).toNat + 128 &&& kDataByteMask = (v % 128).toNat := by
      rw [and_mask]
      omega
    rw [writeSLEB128, if_neg (mt last_iff.1 hl), kDataBitsPerByte, cons_append, readSLEB128From,
      show (v % 2 ^ 7) = v % 128 from rfl, or_more (by omega), toNat_ofNat_lt (by omega),
      if_pos (by omega), if_pos (fun h => by have := (and_bit (i := 7) (by omega)).1 h; omega), hlw,
      or_group hr hk]
    exact ⟨hk, hv.div hk, rfl, rfl⟩
  last_of_fixed h := by omega

/-! ## Unsigned numbers -/

theorem unsigned_format : Format w FitsUnsigned (fun v => v ≤ 127) (fun v => writeUnsigned v.toNat)
    (readUnsignedFrom w) where
  last {r s k v} bytes hs hk hr hv hl := by
    subst hs
    have h0 := hv.1
    rw [writeUnsigned, if_neg (by rw [kMaxUnsignedDataPerByte]; omega), singleton_append,
      readUnsignedFrom, kEndUnsignedByteMarker, toNat_ofNat_lt (by omega),
      if_pos (by rw [kMaxUnsignedDataPerByte]; omega), Nat.add_sub_cancel, or_shiftLeft_mod hr,
      toNat_emod h0]
    exact ⟨rfl, rfl⟩
  more {r s k v} bytes hs hr hv hl := by
    subst hs
    have h0 := hv.1
    obtain ⟨hk, hd⟩ := hv.more hl
    have hb : (UInt8.ofNat (v.toNat % 2 ^ 7)).toNat = (v % 128).toNat := by
      rw [toNat_ofNat_lt (by omega)]
      omega
    have hn : (v / 128).toNat = v.toNat / 128 := by omega
    rw [writeUnsigned, if_pos (by rw [kMaxUnsignedDataPerByte]; omega), cons_append,
      readUnsignedFrom, kDataBitsPerByte, hb, if_neg (by rw [kMaxUnsignedDataPerByte]; omega),
      or_group hr hk, hn]
    exact ⟨hk, hd, rfl, rfl⟩
  last_of_fixed h := by omega

theorem readRefIdFrom_more {n stages : Nat} {res : Int} :
    readRefIdFrom (stages + 1) res (UInt8.ofNat (n % 128) :: bytes) =
      readRefIdFrom stages ((n % 128 : Nat) + res * 2 ^ 7) bytes := by
  have hb : toSigned 8 (n % 128) = (n % 128 : Nat) := if_pos (mod_lt n (by decide))
  rw [readRefIdFrom, toNat_ofNat_lt (by omega), hb, if_neg (by omega)]

theorem readRefIdFrom_last {n stages : Nat} {res : Int} :
    readRefIdFrom (stages + 1) res (UInt8.ofNat (n % 128 ||| 128) :: bytes) =
      .ok ((n % 128 : Nat) + res * 2 ^ 7, bytes) := by
  have hor : n % 128 ||| 128 = n % 128 + 128 := or_more (by omega)
  have hb : toSigned 8 (n % 128 + 128) = (n % 128 : Nat) - 128 := by
    rw [toSigned, if_neg (by omega)]
    omega
  rw [readRefIdFrom, hor, toNat_ofNat_lt (by omega), hb, if_pos (by omega), Except.ok.injEq,
    Prod.mk.injEq]
  exact ⟨by omega, rfl⟩

theorem readRefId_write {v : Nat} (hv : v < 2 ^ 28) :
    ∃ out, writeRefId v = .ok out ∧ readRefId (out ++ bytes) = .ok (v, bytes) := by
  refine ⟨_, if_pos hv, ?_⟩
  have hb := Nat.div_lt_of_lt_mul (show v < 2 ^ 21 * 128 by omega)
  unfold readRefId
  split_ifs
  all_goals
    simp only [nil_append, cons_append, readRefIdFrom_more, readRefIdFrom_last]
    rw [Except.ok.injEq, Prod.mk.injEq]
    exact ⟨by omega, rfl⟩

/-! ## All formats -/

/-- **Every format of the streams** returns the number that was written and leaves the bytes that
follow, for numbers of all widths: LEB128 and the unsigned encoding for unsigned types and for the
numbers of signed types that are not negative, SLEB128 and the signed encoding for signed types. The
last of the `length` bytes is shifted by `7 * (length - 1)`, which is less than the width. -/
theorem streams_round_trip (w : Nat) (hw : 8 ≤ w) (bytes : List UInt8) :
    (∀ n < 2 ^ w, readLEB128 w (writeLEB128 n ++ bytes) = .ok (n, bytes) ∧
      readUnsigned w (writeUnsigned n ++ bytes) = .ok (n, bytes) ∧
      7 * ((writeLEB128 n).length - 1) < w ∧ 7 * ((writeUnsigned n).length - 1) < w) ∧
    (∀ n < 2 ^ (w - 1), castSigned w (readLEB128 w (writeLEB128 n ++ bytes)) = .ok (n, bytes) ∧
      castSigned w (readUnsigned w (writeUnsigned n ++ bytes)) = .ok (n, bytes)) ∧
    (∀ v, Fits w v → castSigned w (readSLEB128 w (writeSLEB128 v ++ bytes)) = .ok (v, bytes) ∧
      read w (write v ++ bytes) = .ok (v, bytes) ∧ readRaw w (write v ++ bytes) = .ok (v, bytes) ∧
      7 * ((writeSLEB128 v).length - 1) < w ∧ 7 * ((write v).length - 1) < w) ∧
    ∀ n < 2 ^ 28, ∃ out, writeRefId n = .ok out ∧ readRefId (out ++ bytes) = .ok (n, bytes) := by
  have hw0 : 0 < w := by omega
  refine ⟨fun n hn => ?_, fun n hn => ?_, fun v hv => ?_, fun n => readRefId_write⟩
  · have hv := fitsUnsigned_natCast hn
    obtain ⟨hr, hl⟩ := read_from_start bytes unsigned_format hw0 hv
    rw [emod_natCast hn] at hr
    exact ⟨readLEB128_write hn hw0, hr,
      (read_from_start bytes leb128_format hw0 hv).2, hl⟩
  · have hp : 2 ^ (w - 1) ≤ 2 ^ w := Nat.pow_le_pow_right (by decide) (by omega)
    have hv := fitsUnsigned_natCast (hn.trans_le hp)
    have hf : Fits w n := by
      have hc : ((2 ^ (w - 1) : Nat) : Int) = 2 ^ (w - 1) := by push_cast; rfl
      constructor <;> omega
    exact ⟨castSigned_read leb128_format hw0 hv hf,
      castSigned_read unsigned_format hw0 hv hf⟩
  · exact ⟨castSigned_read sleb128_format hw0 hv hv, read_write hw hv, readRaw_write hw hv,
      (read_from_start bytes sleb128_format hw0 hv).2,
      (read_from_start bytes (write_format true hw) hw0 hv).2⟩

theorem streams_round_trip_minimum :
    castSigned 64 (readSLEB128 64 (writeSLEB128 (-2 ^ 63) ++ [7])) = .ok (-2 ^ 63, [7]) ∧
      readRaw 64 (write (-2 ^ 63) ++ [7]) = .ok (-2 ^ 63, [7]) ∧
      readUnsigned 64 (writeUnsigned 300 ++ [7]) = .ok (300, [7]) := by
  obtain ⟨hu, -, hsg, -⟩ := streams_round_trip 64 (by decide) [7]
  obtain ⟨hsl, -, hr, -⟩ := hsg (-2 ^ 63) ⟨by decide, by decide⟩
  exact ⟨hsl, hr, (hu 300 (by decide)).2.1⟩

end Vm
