import DartSdk.Lib.MagicDivision
import DartSdk.Platform.MagicDivision

/-!
# The search for a magic number

The variables of the search are the quotients and remainders of a power of two (`At`), doubled in
each iteration. The loop ends at the first power for which the critical dividend passes.

* `Reached.fits`: no doubling and no increment overflows.
* `calculate_spec`: **the search ends**, with the multiplier of a scale between `2 ^ 64` and
  `2 ^ 127` that all dividends pass.
-/

namespace Utils

open MagicDivision MagicSearch Nat BitVec

variable {divisor : BitVec 64}

/-! ## The divisor and the critical dividend -/

/-- The divisors of the search. -/
def IsDivisor (divisor : BitVec 64) : Prop := divisor.toInt ≤ -2 ∨ 2 ≤ divisor.toInt

/-- The greatest absolute value of a dividend for which the quotient is rounded down. -/
def limit (divisor : BitVec 64) : ℕ := if 0 < divisor.toInt then 2 ^ 63 - 1 else 2 ^ 63

theorem limit_le (divisor : BitVec 64) : limit divisor ≤ 2 ^ 63 := by
  rw [limit]
  split <;> omega

theorem absD_toNat (divisor : BitVec 64) : (absD divisor).toNat = divisor.toInt.natAbs := by
  have hlt := divisor.isLt
  rw [absD]
  have ht := toInt_eq_toNat_cond divisor
  split
  next hge =>
    split at ht <;> omega
  next hlt' =>
    split at ht
    · omega
    · rw [toNat_neg]
      omega

theorem natAbs_le (hd : IsDivisor divisor) :
    2 ≤ divisor.toInt.natAbs ∧ divisor.toInt.natAbs ≤ 2 ^ 63 ∧
      divisor.toInt.natAbs ≤ limit divisor + 1 := by
  have hlt := divisor.toInt_lt
  have hle := divisor.le_toInt
  rw [IsDivisor] at hd
  rw [limit]
  split <;> omega

theorem IsDivisor.ne_zero (hd : IsDivisor divisor) : divisor.toInt ≠ 0 := by
  rcases hd with h | h <;> omega

theorem absNc_toNat (hd : IsDivisor divisor) :
    (absNc divisor).toNat = critical divisor.toInt.natAbs (limit divisor) := by
  obtain ⟨h2, hle, hl⟩ := natAbs_le hd
  have htm : (exp + divisor >>> 63).toNat = limit divisor + 1 := by
    have hlt := divisor.isLt
    have ht := toInt_eq_toNat_cond divisor
    have he : exp.toNat = 2 ^ 63 := by decide
    rw [toNat_add, toNat_ushiftRight, shiftRight_eq_div_pow, he, limit]
    rw [IsDivisor] at hd
    split at ht <;> split <;> omega
  have hm := mod_lt (limit divisor + 1) (show 0 < divisor.toInt.natAbs by omega)
  have hl' := limit_le divisor
  have ho : (1 : BitVec 64).toNat = 1 := by decide
  rw [absNc, critical]
  simp only [toNat_sub, toNat_umod, htm, absD_toNat, ho]
  omega

/-! ## Doubling -/

/-- No operation of a doubling overflows. -/
structure Doubles (c quotient remainder : BitVec 64) : Prop where
  quotient_lt : 2 * quotient.toNat < 2 ^ 64
  remainder_lt : 2 * remainder.toNat < 2 ^ 64
  increment_lt : c.toNat ≤ 2 * remainder.toNat → 2 * quotient.toNat + 1 < 2 ^ 64

theorem two_mul_div {c x : ℕ} (hc : 0 < c) :
    2 * x / c = 2 * (x / c) + (if c ≤ 2 * (x % c) then 1 else 0) ∧
      2 * x % c = 2 * (x % c) - (if c ≤ 2 * (x % c) then c else 0) := by
  have hd := div_add_mod x c
  have hm := mod_lt x hc
  have hsp : 2 * x = 2 * (x % c) + c * (2 * (x / c)) := by
    calc 2 * x = 2 * (c * (x / c) + x % c) := by rw [hd]
      _ = 2 * (x % c) + c * (2 * (x / c)) := by ring
  rw [hsp, add_mul_div_left _ _ hc, add_mul_mod_self_left]
  split
  next hle =>
    have ho : 2 * (x % c) / c = 1 := by
      apply Nat.div_eq_of_lt_le <;> omega
    have hr : 2 * (x % c) % c = 2 * (x % c) - c := by
      rw [mod_eq_sub_mod hle, mod_eq_of_lt (by omega)]
    omega
  next hlt =>
    rw [div_eq_of_lt (by omega), mod_eq_of_lt (by omega)]
    omega

theorem double_spec {c quo rm : BitVec 64} {m x : ℕ} (hc : c.toNat = m) (hm : 0 < m)
    (hm' : m ≤ 2 ^ 63) (hq : quo.toNat = x / m) (hr : rm.toNat = x % m)
    (hf : 2 * x / m < 2 ^ 64) :
    Doubles c quo rm ∧ (double c quo rm).1.toNat = 2 * x / m ∧
      (double c quo rm).2.toNat = 2 * x % m := by
  obtain ⟨hd, hmd⟩ := two_mul_div hm
  have hlt := mod_lt x hm
  rw [← hr] at hd hmd hlt
  rw [← hq] at hd
  have ht : (2 : BitVec 64).toNat = 2 := by decide
  have ho : (1 : BitVec 64).toNat = 1 := by decide
  have hq2 : (2 * quo).toNat = 2 * quo.toNat := by
    rw [toNat_mul, ht, mod_eq_of_lt]
    omega
  have hr2 : (2 * rm).toNat = 2 * rm.toNat := by
    rw [toNat_mul, ht, mod_eq_of_lt]
    omega
  have hge : 2 * rm ≥ c ↔ m ≤ 2 * rm.toNat := by
    rw [ge_iff_le, BitVec.le_def, hr2, hc]
  rw [double]
  by_cases hle : m ≤ 2 * rm.toNat
  · rw [if_pos hle] at hd hmd
    rw [if_pos (hge.mpr hle)]
    refine ⟨⟨by omega, by omega, by omega⟩, ?_, ?_⟩
    · rw [toNat_add, hq2, ho, mod_eq_of_lt (by omega)]
      exact hd.symm
    · rw [toNat_sub, hr2, hc, hmd]
      omega
  · rw [if_neg hle] at hd hmd
    rw [if_neg (mt hge.mp hle)]
    exact ⟨⟨by omega, by omega, by omega⟩, hq2.trans hd.symm, hr2.trans hmd.symm⟩

/-! ## The loop -/

namespace MagicSearch

variable {s : MagicSearch} {k : ℕ}

/-- The variables belong to the power `2 ^ k`. -/
structure At (divisor : BitVec 64) (k : ℕ) (s : MagicSearch) : Prop where
  p_eq : s.p = k
  quotient1 : s.quotient1.toNat = 2 ^ k / critical divisor.toInt.natAbs (limit divisor)
  remainder1 : s.remainder1.toNat = 2 ^ k % critical divisor.toInt.natAbs (limit divisor)
  quotient2 : s.quotient2.toNat = 2 ^ k / divisor.toInt.natAbs
  remainder2 : s.remainder2.toNat = 2 ^ k % divisor.toInt.natAbs

/-- No operation of the next iteration overflows. -/
structure Fits (divisor : BitVec 64) (s : MagicSearch) : Prop where
  first : Doubles (absNc divisor) s.quotient1 s.remainder1
  second : Doubles (absD divisor) s.quotient2 s.remainder2

/-- The scale does not yet pass. -/
def Fails (divisor : BitVec 64) (k : ℕ) : Prop :=
  2 ^ k ≤ critical divisor.toInt.natAbs (limit divisor) * excess divisor.toInt.natAbs (2 ^ k)

theorem start_at (hd : IsDivisor divisor) : At divisor 63 (start divisor) := by
  have he : exp.toNat = 2 ^ 63 := by decide
  refine ⟨rfl, ?_, ?_, ?_, ?_⟩
  · rw [start, toNat_udiv, absNc_toNat hd, he]
  · rw [start, toNat_umod, absNc_toNat hd, he]
  · rw [start, toNat_udiv, absD_toNat, he]
  · rw [start, toNat_umod, absD_toNat, he]

theorem critical_pos (hd : IsDivisor divisor) :
    2 ^ 62 - 1 ≤ critical divisor.toInt.natAbs (limit divisor) := by
  obtain ⟨h2, hle, hl⟩ := natAbs_le hd
  obtain ⟨-, hge, hlt⟩ := critical_add_one (show 0 < divisor.toInt.natAbs by omega) hl
  have hN : 2 ^ 63 - 1 ≤ limit divisor := by
    rw [limit]
    split <;> omega
  omega

/-- The next quotients fit in a word, at the start and as long as the scale does not pass. -/
theorem quotients_lt (hd : IsDivisor divisor) (hk : k = 63 ∨ Fails divisor k) :
    2 * 2 ^ k / critical divisor.toInt.natAbs (limit divisor) < 2 ^ 64 ∧
      multiplier divisor.toInt.natAbs (2 * 2 ^ k) < 2 ^ 64 := by
  obtain ⟨h2, hle, hl⟩ := natAbs_le hd
  rcases hk with rfl | hf
  · have hc := critical_pos hd
    constructor
    · rw [Nat.div_lt_iff_lt_mul (by omega)]
      omega
    · have hdv : 2 * 2 ^ 63 / divisor.toInt.natAbs ≤ 2 * 2 ^ 63 / 2 := div_le_div_left h2 (by omega)
      rw [multiplier]
      omega
  · rw [show 2 * 2 ^ k = 2 ^ (k + 1) by rw [Nat.pow_succ, Nat.mul_comm]]
    exact ⟨div_critical_lt h2 hle (limit_le _) hl (by omega) hf,
      multiplier_lt h2 hle (limit_le _) hl (by omega) hf⟩

theorem At.fits_step (h : At divisor k s) (hd : IsDivisor divisor)
    (hk : k = 63 ∨ Fails divisor k) : Fits divisor s ∧ At divisor (k + 1) (s.step divisor) := by
  obtain ⟨h2, hle, hl⟩ := natAbs_le hd
  obtain ⟨hf, hsc⟩ := quotients_lt hd hk
  have hc := critical_pos hd
  have hc' := critical_le (d := divisor.toInt.natAbs) (N := limit divisor)
  have hl' := limit_le divisor
  rw [multiplier] at hsc
  obtain ⟨hd1, hq1, hr1⟩ := double_spec (absNc_toNat hd) (by omega) (by omega) h.quotient1
    h.remainder1 hf
  obtain ⟨hd2, hq2, hr2⟩ := double_spec (absD_toNat divisor) (by omega) hle h.quotient2
    h.remainder2 (by omega)
  rw [show 2 * 2 ^ k = 2 ^ (k + 1) by rw [Nat.pow_succ, Nat.mul_comm]] at hq1 hr1 hq2 hr2
  refine ⟨⟨hd1, hd2⟩, ?_, hq1, hr1, hq2, hr2⟩
  rw [step, h.p_eq]
  rfl

/-- The condition of the loop says whether the scale does not pass. -/
theorem At.continues_iff (h : At divisor k s) (hd : IsDivisor divisor) :
    s.continues divisor = true ↔ Fails divisor k := by
  obtain ⟨h2, hle, -⟩ := natAbs_le hd
  have hcr := critical_pos hd
  have hdl : (absD divisor - s.remainder2).toNat = excess divisor.toInt.natAbs (2 ^ k) := by
    have hmd := mod_lt (2 ^ k) (show 0 < divisor.toInt.natAbs by omega)
    rw [toNat_sub, absD_toNat, h.remainder2, excess]
    omega
  have hdv := div_add_mod (2 ^ k) (critical divisor.toInt.natAbs (limit divisor))
  have hmd := mod_lt (2 ^ k) (show 0 < critical divisor.toInt.natAbs (limit divisor) by omega)
  have hc : s.continues divisor = true ↔
      s.quotient1.toNat < excess divisor.toInt.natAbs (2 ^ k) ∨
        s.quotient1.toNat = excess divisor.toInt.natAbs (2 ^ k) ∧ s.remainder1.toNat = 0 := by
    rw [continues, Bool.or_eq_true, Bool.and_eq_true, decide_eq_true_eq, beq_iff_eq, beq_iff_eq,
      lt_def, hdl, ← toNat_inj, ← toNat_inj, hdl]
    rfl
  rw [hc, h.quotient1, h.remainder1, Fails]
  generalize 2 ^ k / critical divisor.toInt.natAbs (limit divisor) = q at hdv ⊢
  generalize excess divisor.toInt.natAbs (2 ^ k) = e
  constructor
  · rintro (hlt | ⟨rfl, hz⟩)
    · have hm := Nat.mul_le_mul_left (critical divisor.toInt.natAbs (limit divisor)) hlt
      rw [Nat.mul_succ] at hm
      omega
    · omega
  · intro hf
    rcases Nat.lt_trichotomy q e with hlt | rfl | hgt
    · exact .inl hlt
    · exact .inr ⟨rfl, by omega⟩
    · have hm := Nat.mul_le_mul_left (critical divisor.toInt.natAbs (limit divisor)) hgt
      rw [Nat.mul_succ] at hm
      omega

/-- The states in which an iteration begins. -/
inductive Reached (divisor : BitVec 64) : MagicSearch → Prop where
  | start : Reached divisor (start divisor)
  | step {s : MagicSearch} : Reached divisor s → (s.step divisor).continues divisor = true →
      Reached divisor (s.step divisor)

theorem Reached.exists_at (h : Reached divisor s) (hd : IsDivisor divisor) :
    ∃ k, At divisor k s ∧ (k = 63 ∨ Fails divisor k) := by
  induction h with
  | start => exact ⟨63, start_at hd, .inl rfl⟩
  | step _ hc ih =>
    obtain ⟨k, hat, hk⟩ := ih
    have hst := (hat.fits_step hd hk).2
    exact ⟨k + 1, hst, .inr ((hst.continues_iff hd).mp hc)⟩

/-- **No operation of the search overflows**. -/
theorem Reached.fits (h : Reached divisor s) (hd : IsDivisor divisor) : Fits divisor s := by
  obtain ⟨k, hat, hk⟩ := h.exists_at hd
  exact (hat.fits_step hd hk).1

theorem run_spec {fuel : ℕ} (hd : IsDivisor divisor) (h : At divisor k s)
    (hk : k = 63 ∨ Fails divisor k) (hge : 63 ≤ k) (hfl : 127 ≤ k + fuel) :
    ∃ s' k', run divisor fuel s = some s' ∧ At divisor k' s' ∧ 64 ≤ k' ∧ k' ≤ 127 ∧
      ¬ Fails divisor k' ∧ multiplier divisor.toInt.natAbs (2 ^ k') < 2 ^ 64 := by
  obtain ⟨h2, hle, hl⟩ := natAbs_le hd
  have hk' : k ≤ 126 := by
    rcases hk with rfl | hf
    · omega
    · exact le_of_not_small hle (limit_le _) hf
  induction fuel generalizing s k with
  | zero => omega
  | succ fuel ih =>
    obtain ⟨-, hat⟩ := h.fits_step hd hk
    obtain ⟨-, hft⟩ := quotients_lt hd hk
    rw [run]
    by_cases hc : (s.step divisor).continues divisor = true
    · have hf := (hat.continues_iff hd).mp hc
      rw [if_pos hc]
      exact ih hat (.inr hf) (by omega) (by omega) (le_of_not_small hle (limit_le _) hf)
    rw [if_neg hc]
    refine ⟨_, k + 1, rfl, hat, by omega, by omega, mt (hat.continues_iff hd).mpr hc, ?_⟩
    rw [Nat.pow_succ, Nat.mul_comm]
    exact hft

end MagicSearch

/-! ## The magic number -/

/-- The multiplier of a scale `2 ^ (64 + shift)` that all dividends pass, with the sign of the
divisor. -/
structure IsMagic (divisor magic : BitVec 64) (shift : ℕ) : Prop where
  pass : critical divisor.toInt.natAbs (limit divisor) *
    excess divisor.toInt.natAbs (2 ^ (64 + shift)) < 2 ^ (64 + shift)
  fit : multiplier divisor.toInt.natAbs (2 ^ (64 + shift)) < 2 ^ 64
  magic_eq : magic = if 0 < divisor.toInt then
      BitVec.ofNat 64 (multiplier divisor.toInt.natAbs (2 ^ (64 + shift)))
    else -BitVec.ofNat 64 (multiplier divisor.toInt.natAbs (2 ^ (64 + shift)))

/-- **The magic number and the shift**. -/
theorem calculate_spec (hd : IsDivisor divisor) :
    ∃ (mg : BitVec 64) (sh : ℕ), calculateMagicAndShiftForDivRem divisor = some (mg, (sh : ℤ)) ∧
      sh ≤ 63 ∧ IsMagic divisor mg sh := by
  obtain ⟨s, k, hr, hat, hk, hk', hp, hf⟩ :=
    run_spec hd (start_at hd) (.inl rfl) le_rfl (show 127 ≤ 63 + 64 by omega)
  obtain ⟨sh, rfl⟩ := Nat.exists_eq_add_of_le hk
  rw [MagicSearch.Fails, not_le] at hp
  have hq : s.quotient2 + 1 =
      BitVec.ofNat 64 (multiplier divisor.toInt.natAbs (2 ^ (64 + sh))) := by
    apply eq_of_toNat_eq
    rw [multiplier] at hf ⊢
    rw [toNat_add, hat.quotient2, BitVec.toNat_ofNat]
    rfl
  refine ⟨_, sh, ?_, by omega, ⟨hp, hf, rfl⟩⟩
  rw [calculateMagicAndShiftForDivRem, hr, Option.map_some, hat.p_eq, ← hq]
  congr 2
  · split
    · rfl
    · rw [BitVec.neg_add]
  · omega

end Utils
