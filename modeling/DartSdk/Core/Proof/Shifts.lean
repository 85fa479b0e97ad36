import DartSdk.Core.Proof.Digits

/-!
# The shifts of `_BigIntImpl` on digits

`_dlShiftDigits` moves digits, `_lsh` and `_rsh` move bits across digits, and `_lShiftDigits`
combines the two. The result may be written over the operand: the loops run in the direction in
which no digit is overwritten before it is read.
-/

namespace Core.Proof

open Core Digits Loops Option Nat Operand
open Function (update_of_ne update_self)

/-! ## Shifts by digits -/

theorem clearAboveOdd_spec (r : Uint32List) (used : Nat)
    (hr : used + used % 2 ≤ r.length := by omega) :
    ∃ r', clearAboveOdd r used = some r' ∧ r'.length = r.length ∧
      (∀ k, k ≠ used → dig r' k = dig r k) ∧ (used % 2 = 1 → dig r' used = 0) := by
  by_cases ho : used % 2 = 1
  · obtain ⟨r', h, hl, hd⟩ := store_spec (by omega : used < r.length) (v := 0) (by decide)
    refine ⟨r', by rw [clearAboveOdd, if_pos ho, h], hl, fun k hk => ?_, fun _ => ?_⟩ <;>
      rw [hd]
    · exact update_of_ne hk ..
    · exact update_self ..
  · exact ⟨r, by rw [clearAboveOdd, if_neg ho], rfl, fun _ _ => rfl, fun h => absurd h ho⟩

variable {x : Operand} {r : Uint32List} {xUsed n : Nat} {s : Uint32List × Nat}

/-- `_dlShiftDigits`, also in place. -/
theorem dlShiftDigits_spec (hp : 0 < xUsed) (hx : xUsed ≤ Operand.length x r)
    (hr : xUsed + n + (xUsed + n) % 2 ≤ r.length) :
    ∃ r', dlShiftDigits x xUsed n r = some (r', xUsed + n) ∧ r'.length = r.length ∧
      val digitBase (dig r') (xUsed + n) = val digitBase (digs x r) xUsed * digitBase ^ n ∧
      ∀ k < xUsed, dig r' (n + k) = digs x r k := by
  rw [dlShiftDigits, if_neg (by omega)]
  by_cases hsm : (n = 0 && x.isResult) = true
  · rw [if_pos hsm]
    rw [Bool.and_eq_true, decide_eq_true_eq] at hsm
    obtain ⟨rfl, hx⟩ := hsm
    cases x with
    | array digits => cases hx
    | result =>
      exact ⟨r, rfl, rfl, (Nat.mul_one _).symm, fun k _ => by rw [Nat.zero_add]; rfl⟩
  obtain ⟨r1, h1, hl1, hd1⟩ := fillDown (r := r) (n := xUsed) (c := n)
    (g := fun r i => x.load r i) (fun i _ => digs_lt x r i)
    (fun i r' hi hl hkp => by
      rw [Operand.load_eq (by rw [Operand.length_congr hl]; omega),
        digs_congr (hkp i (by omega))]) (by omega)
  obtain ⟨r2, h2, hl2, hd2⟩ := fillDown (r := r1) (n := n) (c := 0) (f := fun _ => 0)
    (fun _ _ => by decide) (fun _ _ _ _ _ => rfl) (by omega)
  obtain ⟨r3, h3, hl3, hkp3, -⟩ := clearAboveOdd_spec r2 (xUsed + n)
  have hh : ∀ k < xUsed, dig r3 (n + k) = digs x r k := by
    intro k hk
    rw [hkp3 _ (by omega), hd2, if_neg (by omega), hd1, if_pos (by omega), Nat.add_sub_cancel_left]
  refine ⟨r3, ?_, by omega, ?_, hh⟩
  · rw [if_neg hsm]
    exact bind_eq_some_iff.2 ⟨r1, h1, bind_eq_some_iff.2 ⟨r2, h2, bind_eq_some_iff.2 ⟨r3, h3, rfl⟩⟩⟩
  · rw [Nat.add_comm]
    exact val_shift (fun k hk => by rw [hkp3 k (by omega), hd2, if_pos (by omega)]) hh

/-! ## Shifts by bits -/

/-- The parts of a digit on both sides of a cut: `p` and `q` are the weights of the two parts. -/
theorem base_split : 2 ^ (n % digitBits) * 2 ^ (digitBits - n % digitBits) = digitBase := by
  have : n % digitBits < digitBits := mod_lt _ (by decide)
  rw [← Nat.pow_add, show n % digitBits + (digitBits - n % digitBits) = digitBits by omega]
  rfl

/-- What the loop of `_lsh` keeps at index `i`: the digits above hold, together with the carry, the
operand's digits from `i` on, shifted; the others are as they were. -/
structure LeftShifted (x : Nat → Nat) (xUsed ds bs : Nat) (r : Uint32List) (i : Nat)
    (s : Uint32List × Nat) : Prop where
  length : s.1.length = r.length
  value : digitBase * val digitBase (fun k => dig s.1 (i + ds + 1 + k)) (xUsed - i) + s.2 =
    val digitBase (fun k => x (i + k)) (xUsed - i) * 2 ^ bs
  carry : ∃ c, s.2 = c * 2 ^ bs ∧ c < 2 ^ (digitBits - bs)
  keep : ∀ k, k ≤ i + ds ∨ xUsed + ds < k → dig s.1 k = dig r k

theorem LeftShifted.step {x : Nat → Nat} {ds : Nat} {i : Nat}
    (hs : LeftShifted x xUsed ds (n % digitBits) r (i + 1) s) (hi : i < xUsed)
    (hr : xUsed + ds < r.length) (hx : x i < digitBase) :
    ∃ r', store s.1 (i + ds + 1) ((x i >>> (digitBits - n % digitBits)) ||| s.2) = some r' ∧
      LeftShifted x xUsed ds (n % digitBits) r i
        (r', (x i &&& ((1 <<< (digitBits - n % digitBits)) - 1)) <<< (n % digitBits)) := by
  obtain ⟨c, hc, hcl⟩ := hs.carry
  have hsp := base_split (n := n)
  generalize hp : 2 ^ (n % digitBits) = p at hsp hc
  generalize hq : 2 ^ (digitBits - n % digitBits) = q at hsp hcl
  have hq0 : 0 < q := hq ▸ Nat.pow_pos (by decide)
  have hh : x i / q < p := Nat.div_lt_of_lt_mul (by rwa [Nat.mul_comm, hsp])
  have hor : (x i >>> (digitBits - n % digitBits)) ||| s.2 = c * p + x i / q := by
    rw [Bits.shiftRight, hq, Nat.or_comm, hc, ← hp, Bits.or_disjoint _ (hp ▸ hh)]
  have hl : (x i &&& ((1 <<< (digitBits - n % digitBits)) - 1)) <<< (n % digitBits) =
      x i % q * p := by
    rw [Bits.shiftLeft, Bits.shiftLeft, Nat.one_mul, Bits.and_low, hp, hq]
  have hlt : c * p + x i / q < digitBase := by
    have : (c + 1) * p ≤ q * p := Nat.mul_le_mul_right p hcl
    rw [Nat.add_mul, Nat.mul_comm q, hsp] at this
    omega
  rw [hor, hl]
  obtain ⟨r', hr', hln, hd⟩ := store_spec (by rw [hs.length]; omega : i + ds + 1 < s.1.length) hlt
  refine ⟨r', hr', hln.trans hs.length, ?_, ⟨x i % q, by rw [hp], by rw [hq]; exact mod_lt _ hq0⟩,
    fun k hk => ?_⟩
  · obtain ⟨m, hm⟩ : ∃ m, xUsed - i = m + 1 := ⟨xUsed - i - 1, by omega⟩
    have hw : val digitBase (fun k => dig r' (i + ds + 1 + (k + 1))) m =
        val digitBase (fun k => dig s.1 (i + 1 + ds + 1 + k)) m :=
      val_congr fun k _ => by
        rw [hd, update_of_ne (by omega)]
        congr 1
        omega
    have hxs : val digitBase (fun k => x (i + (k + 1))) m =
        val digitBase (fun k => x (i + 1 + k)) m :=
      val_congr fun k _ => by rw [show i + (k + 1) = i + 1 + k by omega]
    have hv := hs.value
    rw [show xUsed - (i + 1) = m by omega, hp, hc] at hv
    rw [hm, val_cons, val_cons, hw, hxs]
    simp only [Nat.add_zero]
    rw [hd, update_self, hp, Nat.add_mul, Nat.mul_assoc digitBase (val ..), ← hv]
    have hxi := congrArg (· * p) (mod_add_div (x i) q)
    rw [← hxi, ← hsp]
    ring
  · rw [hd, update_of_ne (by omega)]
    exact hs.keep k (by omega)

/-- `_lsh`: the operand is shifted into the digits from `n / 32` on. -/
theorem lsh_spec (hx : xUsed ≤ Operand.length x r) (hr : xUsed + n / digitBits < r.length) :
    ∃ r', lsh x xUsed n r = some r' ∧ r'.length = r.length ∧
      val digitBase (fun k => dig r' (n / digitBits + k)) (xUsed + 1) =
        val digitBase (digs x r) xUsed * 2 ^ (n % digitBits) ∧
      ∀ k, k < n / digitBits ∨ xUsed + n / digitBits < k → dig r' k = dig r k := by
  unfold lsh
  generalize n / digitBits = ds at hr ⊢
  obtain ⟨s, h, hs⟩ := foldlM_range_reverse (fun (s : Uint32List × Nat) i => do
      let digit ← x.load s.1 i
      let resultDigits ← store s.1 (i + ds + 1) ((digit >>> (digitBits - n % digitBits)) ||| s.2)
      return (resultDigits,
        (digit &&& ((1 <<< (digitBits - n % digitBits)) - 1)) <<< (n % digitBits)))
    (LeftShifted (digs x r) xUsed ds (n % digitBits) r)
    (n := xUsed) (s := (r, 0))
    ⟨rfl, by simp, ⟨0, by simp, Nat.pow_pos (by decide)⟩, fun _ _ => rfl⟩ (by
      intro i hi s hs
      obtain ⟨r', hr', hs'⟩ := hs.step hi hr (digs_lt x r i)
      rw [Operand.load_eq (by rw [Operand.length_congr hs.length]; omega),
        digs_congr (hs.keep i (by omega))]
      exact ⟨_, bind_eq_some_iff.2 ⟨_, rfl, bind_eq_some_iff.2 ⟨r', hr', rfl⟩⟩, hs'⟩)
  obtain ⟨c, hc, hcl⟩ := hs.carry
  have hsp := base_split (n := n)
  have hlt : s.2 < digitBase := by
    rw [hc, ← hsp, Nat.mul_comm (2 ^ _)]
    exact Nat.mul_lt_mul_of_pos_right hcl (Nat.pow_pos (by decide))
  obtain ⟨r', hr', hl, hd⟩ := store_spec (by rw [hs.length]; omega : ds < s.1.length) hlt
  refine ⟨r', bind_eq_some_iff.2 ⟨s, h, hr'⟩, hl.trans hs.length, ?_, fun k hk => ?_⟩
  · have hv := hs.value
    simp only [Nat.zero_add, Nat.sub_zero] at hv
    have hw : val digitBase (fun k => dig r' (ds + (k + 1))) xUsed =
        val digitBase (fun k => dig s.1 (ds + 1 + k)) xUsed :=
      val_congr fun k _ => by
        rw [hd, update_of_ne (by omega)]
        congr 1
        omega
    rw [val_cons, hw, Nat.add_zero, hd, update_self, ← hv]
    omega
  · rw [hd, update_of_ne (by omega)]
    exact hs.keep k (by omega)

/-- What the loop of `_rsh` keeps after `i` digits: the result and the carry are the operand's digits
from `ds` on without their lowest bits. -/
structure RightShifted (x : Nat → Nat) (ds bs : Nat) (r : Uint32List) (i : Nat)
    (s : Uint32List × Nat) : Prop where
  length : s.1.length = r.length
  value : (val digitBase (dig s.1) i + s.2 * digitBase ^ i) * 2 ^ bs + x ds % 2 ^ bs =
    val digitBase (fun k => x (ds + k)) (i + 1)
  carry : s.2 = x (ds + i) / 2 ^ bs
  keep : ∀ k, i ≤ k → dig s.1 k = dig r k

theorem RightShifted.step {x : Nat → Nat} {ds : Nat} {i : Nat}
    (hs : RightShifted x ds (n % digitBits) r i s) (hi : i < r.length) (hx : ∀ k, x k < digitBase) :
    ∃ r', store s.1 i (((x (i + ds + 1) &&& ((1 <<< (n % digitBits)) - 1)) <<<
        (digitBits - n % digitBits)) ||| s.2) = some r' ∧
      RightShifted x ds (n % digitBits) r (i + 1) (r', x (i + ds + 1) >>> (n % digitBits)) := by
  have hsp := base_split (n := n)
  have hv := hs.value
  have hc := hs.carry
  generalize hp : 2 ^ (n % digitBits) = p at hsp hv hc
  generalize hq : 2 ^ (digitBits - n % digitBits) = q at hsp
  have hp0 : 0 < p := hp ▸ Nat.pow_pos (by decide)
  have hl : s.2 < q := hc ▸ Nat.div_lt_of_lt_mul (hsp ▸ hx _)
  have hor : ((x (i + ds + 1) &&& ((1 <<< (n % digitBits)) - 1)) <<< (digitBits - n % digitBits)) |||
      s.2 = x (i + ds + 1) % p * q + s.2 := by
    rw [Bits.shiftLeft, Bits.shiftLeft, Nat.one_mul, Bits.and_low, hp,
      Bits.or_disjoint _ (hq ▸ hl), hq]
  have hlt : x (i + ds + 1) % p * q + s.2 < digitBase := by
    have : (x (i + ds + 1) % p + 1) * q ≤ p * q := Nat.mul_le_mul_right q (mod_lt _ hp0)
    rw [Nat.add_mul, hsp] at this
    omega
  rw [hor, Bits.shiftRight, hp]
  obtain ⟨r', hr', hln, hdg⟩ := store_spec (hs.length ▸ hi) hlt
  refine ⟨r', hr', hln.trans hs.length, ?_, by rw [hp, show ds + (i + 1) = i + ds + 1 by omega],
    fun k hk => ?_⟩
  · rw [hdg, val_update_succ, hp, val_succ _ _ (i + 1), ← hv,
      show ds + (i + 1) = i + ds + 1 by omega]
    have hd := congrArg (· * digitBase ^ (i + 1)) (mod_add_div (x (i + ds + 1)) p)
    rw [← hd, Nat.pow_succ, ← hsp]
    ring
  · rw [hdg, update_of_ne (by omega)]
    exact hs.keep k (by omega)

theorem pow_split (n : Nat) : digitBase ^ (n / digitBits) * 2 ^ (n % digitBits) = 2 ^ n := by
  rw [show digitBase = 2 ^ digitBits from rfl, ← Nat.pow_mul, ← Nat.pow_add, div_add_mod]

/-- `_rsh`: the quotient by `2 ^ n`. -/
theorem rsh_spec (hn : n / digitBits < xUsed) (hx : xUsed ≤ Operand.length x r)
    (hr : xUsed - n / digitBits ≤ r.length) :
    ∃ r', rsh x xUsed n r = some r' ∧ r'.length = r.length ∧
      val digitBase (dig r') (xUsed - n / digitBits) = val digitBase (digs x r) xUsed / 2 ^ n ∧
      ∀ k, xUsed - n / digitBits ≤ k → dig r' k = dig r k := by
  unfold rsh
  rw [← pow_split n, ← Nat.div_div_eq_div_mul]
  generalize n / digitBits = ds at hn hr ⊢
  have hd := digs_lt x r
  obtain ⟨m, rfl⟩ : ∃ m, xUsed = ds + (m + 1) := ⟨xUsed - ds - 1, by omega⟩
  rw [val_div_pow (by decide) fun k _ => hd k, Nat.add_sub_cancel_left]
  obtain ⟨s, h, hs⟩ := foldlM_range (fun (s : Uint32List × Nat) i => do
      let digit ← x.load s.1 (i + ds + 1)
      let resultDigits ← store s.1 i (((digit &&& ((1 <<< (n % digitBits)) - 1)) <<<
        (digitBits - n % digitBits)) ||| s.2)
      return (resultDigits, digit >>> (n % digitBits)))
    (RightShifted (digs x r) ds (n % digitBits) r)
    (n := m) (s := (r, digs x r ds >>> (n % digitBits)))
    ⟨rfl, by simp only [val_zero, val_one, Bits.shiftRight, Nat.add_zero, Nat.zero_add, Nat.pow_zero,
        Nat.mul_one]; exact div_add_mod' .., Bits.shiftRight .., fun _ _ => rfl⟩ (by
      intro i hi s hs
      obtain ⟨r', hr', hs'⟩ := hs.step (by omega) hd
      rw [Operand.load_eq (by rw [Operand.length_congr hs.length]; omega),
        digs_congr (hs.keep _ (by omega))]
      exact ⟨_, bind_eq_some_iff.2 ⟨_, rfl, bind_eq_some_iff.2 ⟨r', hr', rfl⟩⟩, hs'⟩)
  have hlt : s.2 < digitBase := hs.carry ▸ Nat.lt_of_le_of_lt (Nat.div_le_self ..) (hd _)
  obtain ⟨r', hr', hl, hdg⟩ := store_spec (by rw [hs.length]; omega : m < s.1.length) hlt
  refine ⟨r', ?_, hl.trans hs.length, ?_, fun k hk => ?_⟩
  · refine bind_eq_some_iff.2 ⟨_, Operand.load_eq (by omega), ?_⟩
    rw [Nat.add_sub_cancel_left, Nat.add_sub_cancel]
    exact bind_eq_some_iff.2 ⟨s, h, hr'⟩
  · rw [hdg, val_update_succ, ← hs.value, Nat.add_comm (_ * _),
      add_mul_div_right _ _ (Nat.pow_pos (by decide)),
      div_eq_of_lt (mod_lt _ (Nat.pow_pos (by decide))), Nat.zero_add]
  · rw [hdg, update_of_ne (by omega)]
    exact hs.keep k (by omega)

/-! ## Shifts by digits and bits -/

/-- `_lShiftDigits`, also in place. The result has one digit more than the operand and the digits it
is moved by only if that digit is not zero. -/
theorem lShiftDigits_spec (hp : 0 < xUsed) (hx : xUsed ≤ Operand.length x r)
    (hr : xUsed + n / digitBits + (xUsed + n / digitBits) % 2 ≤ r.length)
    (hr' : n % digitBits ≠ 0 → xUsed + n / digitBits + 1 + (xUsed + n / digitBits + 1) % 2 ≤ r.length) :
    ∃ r' used', lShiftDigits x xUsed n r = some (r', used') ∧ r'.length = r.length ∧
      val digitBase (dig r') used' = val digitBase (digs x r) xUsed * 2 ^ n ∧
      (used' = xUsed + n / digitBits ∨
        n % digitBits ≠ 0 ∧ used' = xUsed + n / digitBits + 1 ∧ dig r' (used' - 1) ≠ 0) := by
  unfold lShiftDigits
  rw [← pow_split n]
  by_cases hbs : n % digitBits = 0
  · obtain ⟨r', h, hl, hv, -⟩ := dlShiftDigits_spec hp hx hr
    refine ⟨r', _, by rw [if_pos hbs]; exact h, hl, ?_, .inl rfl⟩
    rw [hv, hbs, Nat.pow_zero, Nat.mul_one]
  obtain ⟨r1, h1, hl1, hv1, -⟩ := lsh_spec (n := n) hx (by have := hr' hbs; omega)
  have hr' := hr' hbs
  rw [if_neg hbs, h1]
  generalize n / digitBits = ds at hr hr' hv1 ⊢
  obtain ⟨r2, h2, hl2, hd2⟩ := fillDown (r := r1) (n := ds) (c := 0) (f := fun _ => 0)
    (fun _ _ => by decide) (fun _ _ _ _ _ => rfl) (by omega)
  have hv2 : val digitBase (dig r2) (ds + (xUsed + 1)) =
      val digitBase (digs x r) xUsed * (digitBase ^ ds * 2 ^ (n % digitBits)) := by
    rw [val_shift (fun k hk => by rw [hd2, if_pos (by omega)])
      (fun k _ => by rw [hd2, if_neg (by omega)]), hv1]
    ring
  have ht : load r2 (xUsed + ds + 1 - 1) = some (dig r2 (xUsed + ds)) := load_eq (by omega)
  simp only [bind_eq_bind, bind_some, Nat.add_zero] at h2 ⊢
  rw [h2, bind_some, ht, bind_some]
  by_cases hz : dig r2 (xUsed + ds) = 0
  · refine ⟨r2, xUsed + ds, by rw [if_pos hz]; rfl, by omega, ?_, .inl rfl⟩
    rw [← hv2, show ds + (xUsed + 1) = xUsed + ds + 1 by omega, val_succ, hz]
    omega
  obtain ⟨r3, h3, hl3, hkp3, -⟩ := clearAboveOdd_spec r2 (xUsed + ds + 1)
  refine ⟨r3, xUsed + ds + 1, by rw [if_neg hz, h3]; rfl, by omega, ?_,
    .inr ⟨hbs, rfl, ?_⟩⟩
  · rw [← hv2, show ds + (xUsed + 1) = xUsed + ds + 1 by omega]
    exact val_congr fun k hk => hkp3 k (by omega)
  · rw [hkp3 _ (by omega)]
    exact hz

end Core.Proof
