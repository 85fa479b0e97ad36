import DartSdk.Backend.Int64Division
import DartSdk.Platform.Proof.MagicDivision

/-!
# Division of 64-bit integers by a constant is exact

* `scaled_quotient`: the quotient by the scale, with its sign corrected, is the quotient by the
  divisor rounded towards zero.
* `toInt_adjusted`: the high word of the product, plus or minus the dividend, is exact.
* `int64Division_spec`: **the emitted code divides** on both targets.
-/

namespace Backend

open MagicDivision Utils Int BitVec

variable {divisor n magic : BitVec 64} {shift : ℕ}

/-! ## Arithmetic -/

/-- The product that the code scales. -/
def signedProduct (divisor n : BitVec 64) (shift : ℕ) : ℤ :=
  if 0 < divisor.toInt then multiplier divisor.toInt.natAbs (2 ^ (64 + shift)) * n.toInt
  else -(multiplier divisor.toInt.natAbs (2 ^ (64 + shift)) * n.toInt)

theorem multiplier_mul_div_cast {d P m : ℕ} (hd : 0 < d)
    (h : m * excess d P < (d - m % d) * P) : (multiplier d P * m : ℤ) / P = ((m / d : ℕ) : ℤ) := by
  rw [← multiplier_mul_div hd h]
  rfl

/-- **Rounding towards zero** is rounding down, corrected by one for a negative result. -/
theorem scaled_quotient (hd : IsDivisor divisor) (hmg : IsMagic divisor magic shift)
    (n : BitVec 64) :
    let t := signedProduct divisor n shift / (2 ^ (64 + shift) : ℕ)
    t + (if t < 0 then 1 else 0) = n.toInt.tdiv divisor.toInt := by
  intro t
  obtain ⟨h2, hle, hl⟩ := natAbs_le hd
  have hp : 0 < divisor.toInt.natAbs := by omega
  have hP : 0 < 2 ^ (64 + shift) := Nat.two_pow_pos _
  have hnl := n.toInt_lt
  have hng := n.le_toInt
  -- The condition on the excess, for both directions of rounding.
  have hdw : ∀ m, m ≤ limit divisor → m * excess divisor.toInt.natAbs (2 ^ (64 + shift)) <
      (divisor.toInt.natAbs - m % divisor.toInt.natAbs) * 2 ^ (64 + shift) :=
    fun m hm => excess_lt_of_le hp hl hmg.pass hm
  have hup : ∀ m, m ≤ 2 ^ 63 → m * excess divisor.toInt.natAbs (2 ^ (64 + shift)) ≤
      (divisor.toInt.natAbs - m % divisor.toInt.natAbs) * 2 ^ (64 + shift) := by
    intro m hm
    by_cases hm' : m ≤ limit divisor
    · exact (hdw m hm').le
    have hls : m = 2 ^ 63 := by
      rw [limit] at hm'
      split at hm' <;> omega
    have hsc : 2 ^ (64 + shift) = 2 ^ 63 * 2 ^ (1 + shift) := by
      rw [← Nat.pow_add, show 63 + (1 + shift) = 64 + shift by omega]
    rw [hls, hsc]
    exact excess_le_of_dvd hp (Nat.two_pow_pos _)
  have hsg : divisor.toInt = divisor.toInt.natAbs ∧ 0 < divisor.toInt ∨
      divisor.toInt = -(divisor.toInt.natAbs : ℤ) ∧ ¬ 0 < divisor.toInt := by omega
  have hl' : 2 ^ 63 - 1 ≤ limit divisor ∧ (¬ 0 < divisor.toInt → limit divisor = 2 ^ 63) := by
    rw [limit]
    split <;> omega
  have ht : t = signedProduct divisor n shift / (2 ^ (64 + shift) : ℕ) := rfl
  clear_value t
  rw [signedProduct] at ht
  generalize divisor.toInt.natAbs = d at hp hdw hup hsg ht
  have htd : ∀ m : ℕ, (m : ℤ).tdiv d = ((m / d : ℕ) : ℤ) := by
    intro m
    rw [tdiv_eq_ediv_of_nonneg (by omega), natCast_ediv]
  -- Rounding down, and the correction of a quotient that is rounded up.
  have hf : ∀ m : ℕ, m ≤ limit divisor → t = (multiplier d (2 ^ (64 + shift)) * m : ℤ) /
      (2 ^ (64 + shift) : ℕ) → t + (if t < 0 then 1 else 0) = ((m / d : ℕ) : ℤ) := by
    intro m hm ht
    rw [multiplier_mul_div_cast hp (hdw m hm)] at ht
    rw [ht, if_neg (natCast_nonneg _).not_gt, Int.add_zero]
  have hc : ∀ m : ℕ, m ≤ 2 ^ 63 → t = -(multiplier d (2 ^ (64 + shift)) * m : ℤ) /
      (2 ^ (64 + shift) : ℕ) → t + (if t < 0 then 1 else 0) = -((m / d : ℕ) : ℤ) := by
    intro m hm ht
    rcases Nat.eq_zero_or_pos m with rfl | hmp
    · rw [ht]
      simp
    rw [neg_multiplier_mul_div hp hP hmp (hup m hm)] at ht
    generalize m / d = q at ht ⊢
    rw [ht, if_pos (by omega)]
    omega
  rcases Int.eq_nat_or_neg n.toInt with ⟨m, hm | hm⟩
  · rcases hsg with ⟨hdv, hsg⟩ | ⟨hdv, hsg⟩
    · rw [if_pos hsg, hm] at ht
      rw [hdv, hm, htd, hf m (by omega) ht]
    · rw [if_neg hsg, hm] at ht
      rw [hdv, hm, Int.tdiv_neg, htd, hc m (by omega) ht]
  · rcases hsg with ⟨hdv, hsg⟩ | ⟨hdv, hsg⟩
    · rw [if_pos hsg, hm, Int.mul_neg] at ht
      rw [hdv, hm, Int.neg_tdiv, htd, hc m (by omega) ht]
    · rw [if_neg hsg, hm, Int.mul_neg, Int.neg_neg] at ht
      rw [hdv, hm, Int.tdiv_neg, Int.neg_tdiv, htd, Int.neg_neg, hf m (by omega) ht]

/-! ## Machine words -/

theorem toInt_eq_of_bmod {x : BitVec 64} {i : ℤ} (h : x.toInt = i.bmod (2 ^ 64))
    (hge : -2 ^ 63 ≤ i) (hlt : i < 2 ^ 63) : x.toInt = i := by
  rw [h, bmod_eq_of_le]
  · exact hge
  · exact hlt

/-- A product with a word is less than a word's bounds times the other factor. -/
theorem mul_toInt_bounds {c : ℤ} {m : ℕ} (hc : |c| ≤ m) (n : BitVec 64) :
    -(m * 2 ^ 63) ≤ c * n.toInt ∧ c * n.toInt ≤ m * 2 ^ 63 := by
  have hnl := n.toInt_lt
  have hng := n.le_toInt
  have hn : |n.toInt| ≤ 2 ^ 63 := by
    rw [abs_le]
    omega
  rw [← abs_le, abs_mul]
  exact mul_le_mul hc hn (abs_nonneg _) (by omega)

theorem toInt_mulHigh (a b : BitVec 64) : (mulHigh a b).toInt = a.toInt * b.toInt / 2 ^ 64 := by
  have halt := a.toInt_lt
  have hag := a.le_toInt
  have ha : |a.toInt| ≤ (2 ^ 63 : ℕ) := by
    rw [abs_le]
    omega
  obtain ⟨hge, hle⟩ := mul_toInt_bounds ha b
  apply toInt_eq_of_bmod (toInt_ofInt _)
  · omega
  · omega

/-- The high word of the product with the magic number, plus or minus the dividend. -/
def adjusted (divisor magic n : BitVec 64) : BitVec 64 :=
  if divisor.toInt > 0 ∧ magic.toInt < 0 then mulHigh magic n + n
  else if divisor.toInt < 0 ∧ magic.toInt > 0 then mulHigh magic n - n
  else mulHigh magic n

/-- A magic number of 64 bits is off by a word if its sign is not that of the divisor. -/
theorem toInt_adjusted (hd : IsDivisor divisor) (h : IsMagic divisor magic shift) (n : BitVec 64) :
    (adjusted divisor magic n).toInt = signedProduct divisor n shift / 2 ^ 64 := by
  obtain ⟨-, hf, hmg⟩ := h
  have hps : 0 < multiplier divisor.toInt.natAbs (2 ^ (64 + shift)) := Nat.succ_pos _
  rw [signedProduct]
  generalize multiplier divisor.toInt.natAbs (2 ^ (64 + shift)) = m at hf hmg hps
  obtain ⟨c, hp, ht, hc⟩ : ∃ c : ℤ,
      (if 0 < divisor.toInt then (m : ℤ) * n.toInt else -(m * n.toInt)) = c * n.toInt ∧
      magic.toInt = c.bmod (2 ^ 64) ∧
      (0 < divisor.toInt ∧ c = m ∨ divisor.toInt < 0 ∧ c = -(m : ℤ)) := by
    rcases hd with hng | hps'
    · rw [if_neg (by omega)] at hmg ⊢
      refine ⟨-m, (Int.neg_mul _ _).symm, ?_, by omega⟩
      rw [hmg, toInt_neg, toInt_ofNat', bmod_neg_bmod]
    · rw [if_pos (by omega)] at hmg ⊢
      exact ⟨m, rfl, by rw [hmg, toInt_ofNat'], by omega⟩
  have hb : |c| ≤ (2 ^ 64 - 1 : ℕ) := by
    rw [abs_le]
    omega
  obtain ⟨hge, hle⟩ := mul_toInt_bounds hb n
  have hw : ∀ {x : BitVec 64} (k : ℤ), magic.toInt = c + 2 ^ 64 * k →
      x.toInt = ((mulHigh magic n).toInt - k * n.toInt).bmod (2 ^ 64) →
      x.toInt = c * n.toInt / 2 ^ 64 := by
    intro x k hk hx
    rw [toInt_mulHigh, hk, Int.add_mul, Int.mul_assoc, add_mul_ediv_left _ _ (by decide),
      Int.add_sub_cancel] at hx
    exact toInt_eq_of_bmod hx (by omega) (by omega)
  have hmd : magic.toInt = c - 2 ^ 64 ∨ magic.toInt = c ∨ magic.toInt = c + 2 ^ 64 := by
    rw [ht, bmod_def]
    omega
  have hlt := magic.toInt_lt
  have hge' := magic.le_toInt
  rw [hp, adjusted]
  split_ifs with hup hdw
  · exact hw (-1) (by omega) (by simp [toInt_add])
  · exact hw 1 (by omega) (by simp [toInt_sub])
  · exact hw 0 (by omega) (by rw [Int.zero_mul, Int.sub_zero, toInt_bmod_cancel])

theorem toInt_shifted (x : BitVec 64) (k : ℕ) : (x.sshiftRight k).toInt = x.toInt / 2 ^ k := by
  rw [toInt_sshiftRight, shiftRight_eq_div_pow]
  rfl

/-- The correction of the sign on x64: the sign bit is added. -/
theorem toInt_add_sign (t : BitVec 64) :
    (t >>> 63 + t).toInt = t.toInt + (if t.toInt < 0 then 1 else 0) := by
  have hlt := t.toInt_lt
  have hge := t.le_toInt
  have htn := toInt_eq_toNat_cond t
  have hsg : (t >>> 63).toInt = if t.toInt < 0 then 1 else 0 := by
    have hb : (t >>> 63).toNat = t.toNat / 2 ^ 63 := by
      rw [toNat_ushiftRight, Nat.shiftRight_eq_div_pow]
    have hc := toInt_eq_toNat_cond (t >>> 63)
    rw [hb] at hc
    split at htn <;> split at hc <;> split <;> omega
  apply toInt_eq_of_bmod
  · rw [toInt_add, hsg, Int.add_comm]
  · split <;> omega
  · split <;> omega

/-- The correction on arm64: the sign, as zero or minus one, is subtracted. -/
theorem toInt_sub_sign (t : BitVec 64) :
    (t - t.sshiftRight 63).toInt = t.toInt + (if t.toInt < 0 then 1 else 0) := by
  have hlt := t.toInt_lt
  have hge := t.le_toInt
  have hsg : (t.sshiftRight 63).toInt = -(if t.toInt < 0 then 1 else 0) := by
    rw [toInt_shifted]
    split <;> omega
  apply toInt_eq_of_bmod
  · rw [toInt_sub, hsg, Int.sub_neg]
  · split <;> omega
  · split <;> omega

/-- What the code up to the finalization computes. -/
theorem toInt_quotient (hd : IsDivisor divisor) (hm : IsMagic divisor magic shift)
    (n : BitVec 64) :
    let t := ((adjusted divisor magic n).sshiftRight shift).toInt
    t + (if t < 0 then 1 else 0) = n.toInt.tdiv divisor.toInt := by
  intro t
  have ht : t = signedProduct divisor n shift / (2 ^ (64 + shift) : ℕ) := by
    simp only [t]
    rw [toInt_shifted, toInt_adjusted hd hm, ediv_ediv, if_neg (by omega), Int.sub_zero,
      ← Int.pow_add]
    rfl
  rw [ht]
  exact scaled_quotient hd hm n

/-! ## Remainders -/

/-- The remainder of a quotient that is rounded towards zero, made non-negative. -/
def euclidean (divisor r : BitVec 64) : BitVec 64 :=
  if r.toInt < 0 then if divisor.toInt > 0 then r + divisor else r - divisor else r

theorem toInt_euclidean {q : BitVec 64} (hd : IsDivisor divisor)
    (hq : q.toInt = n.toInt.tdiv divisor.toInt) :
    (euclidean divisor (n - q * divisor)).toInt = n.toInt % divisor.toInt := by
  have hdl := divisor.toInt_lt
  have hdg := divisor.le_toInt
  have hm : n.toInt - n.toInt.tdiv divisor.toInt * divisor.toInt = n.toInt.tmod divisor.toInt := by
    rw [tmod_def, Int.mul_comm]
  have hab : (n.toInt.tmod divisor.toInt).natAbs < divisor.toInt.natAbs := by
    rw [natAbs_tmod]
    exact Nat.mod_lt _ (natAbs_pos.mpr hd.ne_zero)
  have hr : (n - q * divisor).toInt = n.toInt.tmod divisor.toInt := by
    apply toInt_eq_of_bmod
    · rw [toInt_sub, toInt_mul, sub_bmod_bmod, hq, hm]
    · omega
    · omega
  have he := emod_eq_tmod (a := n.toInt) (b := divisor.toInt)
  have hng := emod_nonneg n.toInt hd.ne_zero
  have hlt := emod_lt n.toInt hd.ne_zero
  rw [euclidean]
  by_cases hne : n.toInt.tmod divisor.toInt < 0
  · have hc : n.toInt % divisor.toInt = n.toInt.tmod divisor.toInt + divisor.toInt.natAbs := by
      split at he
      · omega
      · exact he
    rw [if_pos (by omega), hc]
    split
    next hp =>
      apply toInt_eq_of_bmod
      · rw [toInt_add, hr, natAbs_of_nonneg (by omega)]
      · omega
      · omega
    next hne' =>
      apply toInt_eq_of_bmod
      · rw [toInt_sub, hr, ofNat_natAbs_of_nonpos (by omega), Int.sub_eq_add_neg]
      · omega
      · omega
  · rw [if_neg (by omega), hr]
    split at he <;> omega

/-! ## x64 -/

namespace X64

variable {s : State}

/-- The code up to the finalization keeps the dividend in `TMP`. -/
theorem run_emitQuotient (divisor magic : BitVec 64) (hs : s.target = none) (k : ℕ) :
    let s' := run (emitQuotient divisor magic k) s
    let t := (adjusted divisor magic (s.reg .RAX)).sshiftRight k
    s'.target = none ∧ s'.reg .TMP = s.reg .RAX ∧ s'.reg .RDX = t >>> 63 + t := by
  intro s' t
  simp only [s', t, emitQuotient, adjusted]
  rcases Nat.eq_zero_or_pos k with rfl | hk
  · rw [sshiftRight_zero, if_neg (show ¬ ((0 : ℕ) : ℤ) ≠ 0 by simp)]
    split_ifs <;> simp [run, step, hs, exec, State.set]
  · rw [if_pos (show (k : ℤ) ≠ 0 by omega)]
    split_ifs <;> simp [run, step, hs, exec, State.set]

/-- The remainder is corrected unless the jump is taken. -/
theorem run_emitFinalize (divisor : BitVec 64) (hs : s.target = none) (opk : DivisionKind) :
    (run (emitFinalize divisor opk) s).reg (out opk) = match opk with
      | .kTRUNCDIV => s.reg .RDX
      | .kMOD => euclidean divisor (s.reg .TMP - s.reg .RDX * divisor) := by
  cases opk with
  | kTRUNCDIV => simp [emitFinalize, hs, run, step, exec, State.set, out]
  | kMOD =>
    have hm := msb_eq_toInt (x := s.reg .TMP - s.reg .RDX * divisor)
    simp only [emitFinalize, euclidean]
    by_cases hn : (s.reg .TMP - s.reg .RDX * divisor).toInt < 0
    · rw [decide_eq_true hn] at hm
      rw [if_pos hn]
      split_ifs <;> simp [hs, run, step, exec, State.set, out, hm]
    · rw [decide_eq_false hn] at hm
      rw [if_neg hn]
      split_ifs <;> simp [hs, run, step, exec, State.set, out, hm]

end X64

/-! ## arm64 -/

namespace Arm64

variable {s : State} {left out : Register}

theorem run_emitHigh (divisor magic : BitVec 64) (hl : ∃ i, left = .R i) (k : ℕ) :
    let s' := run (emitHigh divisor magic k left) s
    s'.get left = s.get left ∧
      s'.get .TMP2 = (adjusted divisor magic (s.get left)).sshiftRight k := by
  obtain ⟨i, rfl⟩ := hl
  intro s'
  simp only [s', emitHigh, adjusted]
  rcases Nat.eq_zero_or_pos k with rfl | hk
  · rw [sshiftRight_zero, if_neg (show ¬ ((0 : ℕ) : ℤ) ≠ 0 by simp)]
    split_ifs <;> simp [run, exec, State.set, State.get, State.operand]
  · rw [if_pos (show (k : ℤ) ≠ 0 by omega)]
    split_ifs <;> simp [run, exec, State.set, State.get, State.operand]

theorem run_emitFinalize (divisor : BitVec 64) (hl : ∃ i, left = .R i)
    (ho : ∃ i, out = .R i) (opk : DivisionKind) :
    let t := s.get .TMP2
    (run (emitFinalize divisor left out opk) s).get out = match opk with
      | .kTRUNCDIV => t - t.sshiftRight 63
      | .kMOD => euclidean divisor (s.get left - (t - t.sshiftRight 63) * divisor) := by
  obtain ⟨i, rfl⟩ := hl
  obtain ⟨j, rfl⟩ := ho
  intro t
  cases opk with
  | kTRUNCDIV => simp [t, emitFinalize, run, exec, State.set, State.get, State.operand]
  | kMOD =>
    have hsl : (s.get (.R i) - (t - t.sshiftRight 63) * divisor).slt 0#64 =
        decide ((s.get (.R i) - (t - t.sshiftRight 63) * divisor).toInt < 0) :=
      slt_eq_decide
    simp only [emitFinalize, euclidean]
    by_cases hn : (s.get (.R i) - (t - t.sshiftRight 63) * divisor).toInt < 0
    · rw [decide_eq_true hn] at hsl
      rw [if_pos hn]
      simp only [t, State.get] at hsl
      split_ifs <;> simp [t, run, exec, State.set, State.get, State.operand, hsl]
    · rw [decide_eq_false hn] at hsl
      rw [if_neg hn]
      simp only [t, State.get] at hsl
      split_ifs <;> simp [t, run, exec, State.set, State.get, State.operand, hsl]

end Arm64

/-! ## The emitted code -/

/-- **Division by a constant**: for every divisor below `-1` or above `1` the search ends with a shift
below 64 and without an overflow, and on both targets the emitted code gives the quotient rounded
towards zero and the non-negative remainder. -/
theorem int64Division_spec (hd : IsDivisor divisor) :
    (∀ s, MagicSearch.Reached divisor s → s.Fits divisor) ∧
    (∃ magic shift, calculateMagicAndShiftForDivRem divisor = some (magic, shift) ∧
      0 ≤ shift ∧ shift ≤ 63) ∧
    ∀ opKind : DivisionKind, ∀ n : BitVec 64,
      let result := match opKind with
        | .kTRUNCDIV => n.toInt.tdiv divisor.toInt
        | .kMOD => n.toInt % divisor.toInt
      (opKind = .kMOD → 0 ≤ result ∧ result < |divisor.toInt|) ∧
      (∃ code, X64.emitInt64ModTruncDiv opKind divisor = some code ∧
        ∀ s : X64.State, s.target = none → s.reg .RAX = n →
          ((X64.run code s).reg (X64.out opKind)).toInt = result) ∧
      ∀ i j, ∃ code, Arm64.emitInt64ModTruncDiv opKind divisor (.R i) (.R j) = some code ∧
        ∀ s : Arm64.State, s.get (.R i) = n → ((Arm64.run code s).get (.R j)).toInt = result := by
  obtain ⟨magic, shift, hc, hsh, hm⟩ := calculate_spec hd
  refine ⟨fun s hs => hs.fits hd, ⟨magic, shift, hc, by omega, by omega⟩, ?_⟩
  intro opKind n result
  have hqt := toInt_quotient hd hm n
  refine ⟨?_, ⟨_, by rw [X64.emitInt64ModTruncDiv, hc]; rfl, ?_⟩, ?_⟩
  · rintro rfl
    exact ⟨emod_nonneg _ hd.ne_zero, emod_lt_abs _ hd.ne_zero⟩
  · intro s hs hn
    obtain ⟨ht, htm, hr⟩ := X64.run_emitQuotient divisor magic hs shift
    rw [hn] at htm hr
    have hf := X64.run_emitFinalize divisor ht opKind
    rw [htm, hr] at hf
    rw [X64.run, List.foldl_append, ← X64.run, ← X64.run, hf]
    have hq := (toInt_add_sign _).trans hqt
    cases opKind with
    | kTRUNCDIV => exact hq
    | kMOD => exact toInt_euclidean hd hq
  · intro i j
    refine ⟨_, by rw [Arm64.emitInt64ModTruncDiv, hc]; rfl, ?_⟩
    intro s hn
    obtain ⟨hl, htm2⟩ := Arm64.run_emitHigh divisor magic ⟨i, rfl⟩ shift
    rw [hn] at hl htm2
    have hf := Arm64.run_emitFinalize (s := Arm64.run (Arm64.emitHigh divisor magic shift (.R i)) s)
      divisor ⟨i, rfl⟩ ⟨j, rfl⟩ opKind
    rw [hl, htm2] at hf
    rw [Arm64.run, List.foldl_append, ← Arm64.run, ← Arm64.run, hf]
    have hq := (toInt_sub_sign _).trans hqt
    cases opKind with
    | kTRUNCDIV => exact hq
    | kMOD => exact toInt_euclidean hd hq

theorem int64Division_spec_neg_seven :
    IsDivisor (-7) ∧
    ∃ code, X64.emitInt64ModTruncDiv .kTRUNCDIV (-7) = some code ∧
      ∀ s : X64.State, s.target = none → s.reg .RAX = 100 →
        ((X64.run code s).reg .RAX).toInt = -14 := by
  have hd : IsDivisor (-7) := .inl (by decide)
  exact ⟨hd, ((int64Division_spec hd).2.2 .kTRUNCDIV 100).2.1⟩

end Backend
