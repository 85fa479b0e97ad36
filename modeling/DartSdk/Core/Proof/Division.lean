import DartSdk.Core.BigIntDivision
import DartSdk.Core.Proof.BigInt
import DartSdk.Lib.LongDivision

/-!
# Division of `_BigIntImpl`: before the loop

`_divRem` runs long division on a list that holds the remainder and, above it, the quotient digits
found so far.

* `estimateQuotientDigit_spec`: the estimated digit is not smaller than the quotient digit.
* `firstDivStep_spec`: the digit on top, after which `LongDivision.Partial` holds.
* `normalizeOperands_spec`: the highest bit of the normalized divisor is set.
-/

namespace Core.Proof

open Core Digits LongDivision Loops Option Nat Function

/-! ## The estimated digit -/

variable {r y : Uint32List} {yUsed : Nat}

variable {args tmp ny x : Uint32List}

theorem estimateQuotientDigit_spec {i : Nat} (hi : i < r.length) (ha : args.length = 4)
    (ht : 2 ^ 31 ≤ dig args divisorTopDigit) : ∃ args', estimateQuotientDigit args r i = some args'
    ∧ args'.length = 4 ∧ dig args' divisorTopDigit = dig args divisorTopDigit ∧ ∀ q, q < digitBase →
    q ≤ (dig r i * digitBase + dig r (i - 1)) / dig args divisorTopDigit → q ≤ dig args'
    Core.quotientDigit := by
  -- It is enough to know the digit that is stored.
  suffices h : ∃ v, estimateQuotientDigit args r i = store args Core.quotientDigit v ∧
      v < digitBase ∧ ∀ q, q < digitBase →
        q ≤ (dig r i * digitBase + dig r (i - 1)) / dig args divisorTopDigit → q ≤ v by
    obtain ⟨v, hv, hlt, hq⟩ := h
    obtain ⟨args', h, hl, hd⟩ :=
      store_spec (by rw [ha]; decide : Core.quotientDigit < args.length) hlt
    refine ⟨args', hv.trans h, hl.trans ha, ?_, ?_⟩
    · rw [hd]
      exact update_of_ne (by decide) ..
    · rwa [hd, update_self]
  rw [estimateQuotientDigit, load_eq hi, load_eq (by rw [ha]; decide), load_eq (by omega)]
  generalize dig args divisorTopDigit = t at *
  simp only [some_bind]
  by_cases heq : dig r i = t
  · exact ⟨digitMask, if_pos heq, by decide, fun _ hlt _ => Nat.le_pred_of_lt hlt⟩
  rw [if_neg heq]
  -- The two leading digits without the lowest bit.
  have hhl : (dig r i <<< (digitBits - 1)) ||| (dig r (i - 1) >>> 1) =
      (dig r i * digitBase + dig r (i - 1)) / 2 := by
    have hlw := dig_lt r (i - 1)
    rw [digitBase_eq] at hlw ⊢
    rw [Bits.shiftLeft, Bits.shiftRight, show digitBits - 1 = 31 from rfl, Bits.or_disjoint]
    omega
  have hdv : truncDivNat ((dig r i * digitBase + dig r (i - 1)) / 2) (t >>> 1) =
      some ((dig r i * digitBase + dig r (i - 1)) / 2 / (t / 2)) := by
    rw [Bits.shiftRight, Nat.pow_one, truncDivNat, if_neg (by omega)]
  have he := div_le_half_div_half (n := dig r i * digitBase + dig r (i - 1))
    (by omega : 1 < t)
  rw [hhl, hdv, some_bind]
  generalize (dig r i * digitBase + dig r (i - 1)) / 2 / (t / 2) = est at *
  by_cases hb : est > digitMask
  · exact ⟨digitMask, if_pos hb, by decide, fun _ hlt _ => Nat.le_pred_of_lt hlt⟩
  · exact ⟨est, if_neg hb, Nat.lt_of_le_of_lt (Nat.not_lt.1 hb) (by decide),
      fun q _ hle => hle.trans he⟩

/-! ## The first step -/

/-- The top digit of the normalized divisor makes it at least half of the largest number. -/
theorem half_le {Y t : Nat} (hp : 0 < yUsed) (hl : t * digitBase ^ (yUsed - 1) ≤ Y)
    (htp : 2 ^ 31 ≤ t) : digitBase ^ yUsed ≤ 2 * Y := by
  calc digitBase ^ yUsed = digitBase * digitBase ^ (yUsed - 1) := by
        rw [← Nat.pow_succ', succ_eq_add_one, Nat.sub_add_cancel hp]
    _ ≤ 2 * t * digitBase ^ (yUsed - 1) := Nat.mul_le_mul_right _ (by rw [digitBase_eq]; omega)
    _ ≤ 2 * Y := by rw [Nat.mul_assoc]; exact Nat.mul_le_mul_left _ hl

/-- The number after the first step: the divisor at the top digits is subtracted if it fits. -/
theorem Partial.first {b m X Y j : Nat} (hX : X < b ^ (j + m)) (hY : b ^ m ≤ 2 * Y) :
    (X < Y * b ^ j → Partial b m X Y j X) ∧
      (Y * b ^ j ≤ X → Partial b m X Y j (X - Y * b ^ j + b ^ (j + m))) := by
  have hp : b ^ (j + m) ≤ 2 * (Y * b ^ j) := by
    rw [Nat.add_comm, Nat.pow_add, ← Nat.mul_assoc]
    exact Nat.mul_le_mul_right _ hY
  refine ⟨fun hlt => ⟨?_, ?_⟩, fun hle => ⟨?_, ?_⟩⟩
  · rwa [mod_eq_of_lt hX]
  · rw [mod_eq_of_lt hX, div_eq_of_lt hX, Nat.mul_zero, Nat.add_zero]
  · rw [add_mod_right, mod_eq_of_lt (by omega)]
    omega
  · rw [add_mod_right, mod_eq_of_lt (by omega), add_div_right _ (by omega), div_eq_of_lt (by omega)]
    omega

theorem firstDivStep_spec {used : Nat} (hps : 0 < yUsed)
    (hy : yUsed ≤ y.length) (ht : 2 ^ 31 ≤ dig y (yUsed - 1)) (hu : yUsed ≤ used + used % 2)
    (hr : used + 1 + (used + 1) % 2 ≤ r.length) (htm : used + used % 2 ≤ tmp.length) :
    ∃ r' tmp', firstDivStep y yUsed r used tmp = some (r', used + 1, tmp') ∧
      r'.length = r.length ∧ tmp'.length = tmp.length ∧
      Partial digitBase yUsed (val digitBase (dig r) used) (val digitBase (dig y) yUsed)
        (used + used % 2 - yUsed) (val digitBase (dig r') (used + 1)) ∧
      ((used + 1) % 2 = 1 → dig r' (used + 1) = 0) := by
  obtain ⟨j, hj⟩ : ∃ j, used + used % 2 = j + yUsed := ⟨used + used % 2 - yUsed, by omega⟩
  have hlw : dig y (yUsed - 1) * digitBase ^ (yUsed - 1) ≤ val digitBase (dig y) yUsed := by
    obtain _ | k := yUsed
    · omega
    rw [val_succ, Nat.add_sub_cancel]
    omega
  -- The divisor moved to the top digits.
  obtain ⟨tmp1, h1, hln1, hva1, hhg⟩ := dlShiftDigits_spec (x := .array y) (r := tmp)
    (n := j) hps hy (by omega)
  rw [show Operand.digs (.array y) tmp = dig y from rfl] at hva1 hhg
  obtain ⟨c, hc, hcl, -⟩ := compareDigits_spec (x := r) (y := tmp1) (m := used) (n := yUsed + j)
    (by omega) (by omega) (fun h => absurd h (by omega)) (fun _ => by
      rw [show yUsed + j - 1 = j + (yUsed - 1) by omega, hhg _ (by omega)]
      omega)
  rw [hva1] at hcl
  have hf := Partial.first (j := j)
    ((val_dig_lt r used).trans_le (Nat.pow_le_pow_right (by decide) (by omega)))
    (half_le hps hlw ht)
  -- The quotient digit on top, and the rest of the result.
  obtain ⟨r2, h2, hln2, hp⟩ : ∃ r2,
      topQuotientDigit r used tmp1 (yUsed + j) = some r2 ∧ r2.length = r.length ∧
      Partial digitBase yUsed (val digitBase (dig r) used) (val digitBase (dig y) yUsed) j
        (val digitBase (dig r2) (used + 1)) := by
    rw [topQuotientDigit, hc, some_bind]
    by_cases hge : c ≥ 0
    · have hle : val digitBase (dig y) yUsed * digitBase ^ j ≤ val digitBase (dig r) used := by
        omega
      -- The lengths are equal: an odd number of digits is smaller.
      have he : used = j + yUsed := by
        by_contra hne
        have h := val_dig_lt r used
        have hpw : digitBase ^ (used + 1) ≤ 2 * (val digitBase (dig y) yUsed * digitBase ^ j) := by
          rw [show used + 1 = yUsed + j by omega, Nat.pow_add, ← Nat.mul_assoc]
          exact Nat.mul_le_mul_right _ (half_le hps hlw ht)
        rw [Nat.pow_succ] at hpw
        have : digitBase ^ used * 2 < digitBase ^ used * digitBase :=
          Nat.mul_lt_mul_of_pos_left (by decide) (Nat.pow_pos (by decide))
        omega
      obtain ⟨r1, hr1, hl1, hd1⟩ := store_spec (v := 1) (by omega : used < r.length) (by decide)
      have hvl1 : val digitBase (dig r1) (used + 1) =
          val digitBase (dig r) used + digitBase ^ (j + yUsed) := by
        rw [hd1, val_update_succ, Nat.one_mul, ← he]
      obtain ⟨r2, hr2, hl2, hvl2, -⟩ := absSub_result (r := r1) (y := tmp1)
        (by omega : yUsed + j ≤ used + 1) (by omega) (by omega) (by rw [hva1, hvl1]; omega)
      refine ⟨r2, by rw [if_pos hge, hr1]; exact hr2, by omega, ?_⟩
      rw [hvl2, hva1, hvl1, Nat.sub_add_comm hle]
      exact hf.2 hle
    · obtain ⟨r1, hr1, hl1, hd1⟩ := store_spec (v := 0) (by omega : used < r.length) (by decide)
      refine ⟨r1, by rw [if_neg hge]; exact hr1, hl1, ?_⟩
      rw [hd1, val_update_succ, Nat.zero_mul, Nat.add_zero]
      exact hf.1 (by omega)
  obtain ⟨r3, h3, hln3, hkp3, hz⟩ := clearAboveOdd_spec r2 (used + 1)
  refine ⟨r3, tmp1, ?_, by omega, hln1, ?_, hz⟩
  · rw [firstDivStep, and_one_is_mod, hj, Nat.add_sub_cancel]
    exact bind_eq_some_iff.2 ⟨_, h1, bind_eq_some_iff.2 ⟨r2, h2, bind_eq_some_iff.2 ⟨r3, h3, rfl⟩⟩⟩
  · rw [show used + used % 2 - yUsed = j by omega, val_congr fun k hk => hkp3 k (by omega)]
    exact hp

/-! ## Normalization -/

theorem bitLength_spec {n : Nat} (h : n ≠ 0) :
    0 < bitLength n ∧ 2 ^ (bitLength n - 1) ≤ n ∧ n < 2 ^ bitLength n := by
  rw [bitLength, if_neg h, Nat.add_sub_cancel]
  exact ⟨succ_pos _, log2_self_le h, lt_log2_self⟩

theorem bitLength_dig_le (d : Uint32List) {i : Nat} (h : dig d i ≠ 0) :
    bitLength (dig d i) ≤ 32 := by
  by_contra hgt
  have hl := (bitLength_spec h).2.1
  have := Nat.pow_le_pow_right (show 0 < 2 by decide) (by omega : 32 ≤ bitLength (dig d i) - 1)
  have hd := dig_lt d i
  rw [digitBase_eq] at hd
  omega

section Normalize

variable {d : Uint32List} {used : Nat}

/-- What a divisor is shifted by, and what becomes of it. -/
theorem normalizationShift_spec (hps : 0 < used) (ht : dig d (used - 1) ≠ 0) :
    let nsh := normalizationShift (dig d (used - 1)) used
    nsh / digitBits = used % 2 ∧
      2 ^ 31 * digitBase ^ (used + used % 2 - 1) ≤ val digitBase (dig d) used * 2 ^ nsh ∧
      val digitBase (dig d) used * 2 ^ nsh < digitBase ^ (used + used % 2) := by
  obtain ⟨hL, hl, hh⟩ := bitLength_spec ht
  have hd := dig_lt d (used - 1)
  have hL32 := bitLength_dig_le d ht
  generalize hLd : bitLength (dig d (used - 1)) = L at *
  -- The shift splits into bits and, for an odd number of digits, one digit.
  have hn : normalizationShift (dig d (used - 1)) used = (32 - L) + 32 * (used % 2) := by
    rw [normalizationShift, hLd, show digitBits = 32 from rfl]
    split <;> omega
  have hp : 2 ^ normalizationShift (dig d (used - 1)) used =
      2 ^ (32 - L) * digitBase ^ (used % 2) := by
    rw [hn, Nat.pow_add, Nat.pow_mul, digitBase_eq]
  obtain _ | k := used
  · omega
  rw [Nat.add_sub_cancel] at *
  have hv := val_succ digitBase (dig d) k
  have hr := val_dig_lt d k
  refine ⟨by rw [hn, show digitBits = 32 from rfl]; omega, ?_, ?_⟩
  · rw [hp, ← Nat.mul_assoc, show k + 1 + (k + 1) % 2 - 1 = k + (k + 1) % 2 by omega,
      Nat.pow_add, ← Nat.mul_assoc]
    refine Nat.mul_le_mul_right _ ?_
    calc 2 ^ 31 * digitBase ^ k = 2 ^ (L - 1) * digitBase ^ k * 2 ^ (32 - L) := by
          rw [Nat.mul_right_comm, ← Nat.pow_add, show L - 1 + (32 - L) = 31 by omega]
      _ ≤ dig d k * digitBase ^ k * 2 ^ (32 - L) :=
          Nat.mul_le_mul_right _ (Nat.mul_le_mul_right _ hl)
      _ ≤ val digitBase (dig d) (k + 1) * 2 ^ (32 - L) := Nat.mul_le_mul_right _ (by omega)
  · rw [hp, ← Nat.mul_assoc, Nat.pow_add]
    refine Nat.mul_lt_mul_of_pos_right ?_ (Nat.pow_pos (by decide))
    calc val digitBase (dig d) (k + 1) * 2 ^ (32 - L)
        < 2 ^ L * digitBase ^ k * 2 ^ (32 - L) := by
          refine Nat.mul_lt_mul_of_pos_right ?_ (Nat.pow_pos (by decide))
          have := Nat.mul_le_mul_right (digitBase ^ k) (Nat.succ_le_of_lt hh)
          rw [succ_mul] at this
          omega
      _ = digitBase ^ (k + 1) := by
          rw [Nat.mul_right_comm, ← Nat.pow_add, show L + (32 - L) = 32 by omega, ← digitBase_eq,
            ← Nat.pow_succ']

/-- A normalized number in a list of `n` digits has the highest bit of the top digit set. -/
theorem top_of_le {n : Nat} (hn : 0 < n)
    (h : 2 ^ 31 * digitBase ^ (n - 1) ≤ val digitBase (dig y) n) : 2 ^ 31 ≤ dig y (n - 1) := by
  obtain _ | k := n
  · omega
  rw [Nat.add_sub_cancel] at *
  have hd := val_div_pow (n := 1) (by decide) fun i (_ : i < k) => dig_lt y i
  rw [val_one] at hd
  simp only [Nat.add_zero] at hd
  rw [← hd, Nat.le_div_iff_mul_le (Nat.pow_pos (by decide))]
  exact h

/-- The normalized operands: both shifted, the divisor with its highest bit set. -/
theorem normalizeOperands_spec {nx : Nat} (hx : nx ≤ x.length) (hd : used ≤ d.length)
    (hle : used ≤ nx) (hp : 0 < used) (ht : dig d (used - 1) ≠ 0) : let nsh := normalizationShift (dig d (used - 1)) used
    ∃ y r rUsed, normalizeOperands x nx d used nsh = some (y, used + used % 2, r, rUsed) ∧
      used + used % 2 ≤ y.length ∧
      val digitBase (dig y) (used + used % 2) = val digitBase (dig d) used * 2 ^ nsh ∧
      rUsed + 1 + (rUsed + 1) % 2 ≤ r.length ∧ nx + used % 2 ≤ rUsed ∧
      val digitBase (dig r) rUsed = val digitBase (dig x) nx * 2 ^ nsh := by
  obtain ⟨hds, hlw, hu⟩ := normalizationShift_spec hp ht
  intro nsh
  change nsh / digitBits = used % 2 at hds
  rw [normalizeOperands]
  by_cases hn : nsh > 0
  · have hex : nsh % digitBits = 0 ∧ (nsh + digitBits - 1) / digitBits = used % 2 ∨
        nsh % digitBits ≠ 0 ∧ (nsh + digitBits - 1) / digitBits = used % 2 + 1 := by
      rw [show digitBits = 32 from rfl] at *
      omega
    obtain ⟨y, yUsed, hy, hln, hv, hys⟩ := lShiftDigits_spec (x := .array d)
      (r := newDigits (used + ((nsh + digitBits - 1) / digitBits + 1))) hp hd
      (by rw [length_newDigits, hds]; omega) (by rw [length_newDigits, hds]; omega)
    obtain ⟨r, rUsed, hr, hl, hvl, hrs⟩ := lShiftDigits_spec (x := .array x)
      (r := newDigits (nx + ((nsh + digitBits - 1) / digitBits + 1))) (by omega) hx
      (by rw [length_newDigits, hds]; omega) (by rw [length_newDigits, hds]; omega)
    rw [length_newDigits] at hln hl
    rw [hds] at hys hrs
    -- No digit more than normalization leaves.
    obtain rfl : yUsed = used + used % 2 := by
      rcases hys with h | ⟨-, h, hne⟩
      · exact h
      · have hbg := pow_le_val (b := digitBase) (by omega) hne
        rw [hv, h, Nat.add_sub_cancel] at hbg
        exact absurd hbg (Nat.not_le.2 hu)
    refine ⟨y, r, rUsed, ?_, by omega, hv, by omega, by omega, hvl⟩
    rw [if_pos hn]
    exact bind_eq_some_iff.2 ⟨_, hy, bind_eq_some_iff.2 ⟨_, hr, rfl⟩⟩
  · -- The divisor is normalized already.
    have hz : nsh = 0 := by omega
    have he : used % 2 = 0 := by rw [← hds, hz]; rfl
    obtain ⟨r, hr, hl, hdg⟩ := cloneDigits_spec (Nat.zero_le nx) hx
      (by omega : nx - 0 ≤ nx + 1)
    refine ⟨d, r, nx, ?_, by omega, ?_, by omega, by omega, ?_⟩
    · rw [if_neg hn, hr, he, Nat.add_zero]
      rfl
    · rw [hz, he, Nat.add_zero, Nat.pow_zero, Nat.mul_one]
    · rw [hz, Nat.pow_zero, Nat.mul_one]
      exact val_congr fun k hk => by rw [hdg, if_pos (by omega), Nat.zero_add]

theorem initDivArgs_spec (h2 : 2 ≤ yUsed) (hy : yUsed ≤ y.length) :
    ∃ args, initDivArgs y yUsed = some args ∧ args.length = 4 ∧
      dig args divisorTopDigit = dig y (yUsed - 1) ∧
      dig args divisorLowTopDigit = dig y (yUsed - 2) := by
  obtain ⟨args1, h1, hl1, hd1⟩ := store_spec
    (by rw [length_newDigits]; decide : divisorLowTopDigit < (newDigits 4).length)
    (dig_lt y (yUsed - 2))
  rw [length_newDigits] at hl1
  obtain ⟨args2, h₂, hl2, hd2⟩ := store_spec
    (by rw [hl1]; decide : divisorTopDigit < args1.length) (dig_lt y (yUsed - 1))
  refine ⟨args2, ?_, hl2.trans hl1, by rw [hd2]; exact update_self .., ?_⟩
  · rw [initDivArgs, load_eq (by omega), load_eq (by omega)]
    exact bind_eq_some_iff.2 ⟨_, rfl, bind_eq_some_iff.2 ⟨args1, h1, h₂⟩⟩
  · rw [hd2, update_of_ne (by decide), hd1, update_self]

theorem negateDigits_spec (hy : yUsed ≤ y.length) (hp : 0 < val digitBase (dig y) yUsed) :
    ∃ ny, negateDigits y yUsed = some ny ∧ yUsed ≤ ny.length ∧
      val digitBase (dig ny) yUsed = digitBase ^ yUsed - val digitBase (dig y) yUsed := by
  obtain ⟨ny1, h1, hl1, hd1⟩ := store_spec (v := 1)
    (le_newDigits (by omega) : yUsed < (newDigits (yUsed + 2)).length) (by decide)
  rw [length_newDigits] at hl1
  have hvl1 : val digitBase (dig ny1) (yUsed + 1) = digitBase ^ yUsed := by
    rw [hd1, val_update_succ, val_dig_newDigits, Nat.zero_add, Nat.one_mul]
  have hlt := val_dig_lt y yUsed
  obtain ⟨ny, h, hl, hvl, -⟩ := absSub_result (by omega : yUsed ≤ yUsed + 1) hy
    (by omega : yUsed + 1 ≤ ny1.length) (by rw [hvl1]; omega)
  rw [hvl1, val_succ] at hvl
  refine ⟨ny, bind_eq_some_iff.2 ⟨ny1, h1, h⟩, by omega, ?_⟩
  -- The difference is below the power, so its top digit is zero.
  have ht : dig ny yUsed = 0 := by
    by_contra hne
    have : 1 * digitBase ^ yUsed ≤ dig ny yUsed * digitBase ^ yUsed :=
      Nat.mul_le_mul_right _ (one_le_iff_ne_zero.2 hne)
    omega
  rwa [ht, Nat.zero_mul, Nat.add_zero] at hvl

end Normalize

end Core.Proof
