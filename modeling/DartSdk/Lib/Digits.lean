import Mathlib.Data.Nat.Digits.Defs

/-!
# Positional values

The number `val b d n` that the first `n` digits of a digit function `d` denote in base `b`, least
significant digit first. Digits are functions of the position, so that a store into an array is a
`update` and a window of an array is a shifted function.

* `val_add`, `val_window`: a number splits at any position.
* `val_lt`, `pow_le_val`: the bounds that a number of digits and a nonzero top digit give.
* `val_lt_val`: digits compare from the top.
* `testBit_val`: with a power of two as the base, the bits of a number are those of its digits.
-/

namespace Digits

open Nat Int
open Function (update update_of_ne update_self)

variable {b n m i : Nat} {d e : Nat → Nat}

/-- The number with the digits `d 0, …, d (n - 1)` in base `b`. -/
def val (b : Nat) (d : Nat → Nat) (n : Nat) : Nat := Nat.ofDigits b ((List.range n).map d)

section
variable (b : Nat) (d : Nat → Nat)

@[simp] theorem val_zero : val b d 0 = 0 := rfl

theorem val_add (m n : Nat) :
    val b d (m + n) = val b d m + b ^ m * val b (fun i => d (m + i)) n := by
  simp [val, List.range_add, ofDigits_append, Function.comp_def]

theorem val_succ (n : Nat) : val b d (n + 1) = val b d n + d n * b ^ n := by
  rw [val_add, Nat.mul_comm]
  simp [val]

theorem val_one : val b d 1 = d 0 := by simp [val]

/-- Two digits are one digit of the squared base. -/
theorem val_square (n : Nat) :
    val (b ^ 2) (fun k => d (2 * k) + d (2 * k + 1) * b) n = val b d (2 * n) := by
  induction n with
  | zero => rfl
  | succ n ih =>
    rw [val_succ, ih, show 2 * (n + 1) = 2 * n + 1 + 1 by ring, val_succ, val_succ]
    ring

/-- The product of a digit and a number, one digit at a time. -/
theorem mul_val_succ (x j n : Nat) :
    x * val b d (n + 1) * b ^ j = x * val b d n * b ^ j + x * d n * b ^ (j + n) := by
  rw [val_succ]
  ring

end

theorem val_congr (h : ∀ i < n, d i = e i) : val b d n = val b e n := by
  unfold val
  congr 1
  exact List.map_congr_left fun i hi => h i (List.mem_range.1 hi)

/-- A store at or above the first `n` digits does not change the number. -/
theorem val_update (v : Nat) (h : n ≤ i) : val b (update d i v) n = val b d n :=
  val_congr fun k hk => update_of_ne (by omega) ..

theorem val_extend (hmn : m ≤ n) (h : ∀ i, m ≤ i → i < n → d i = 0) : val b d n = val b d m := by
  induction n with
  | zero => rw [le_zero.1 hmn]
  | succ n ih =>
    rcases Nat.lt_or_eq_of_le hmn with hlt | rfl
    · rw [val_succ, h n (by omega) (by omega), ih (by omega) fun i hi hi' => h i hi (by omega)]
      omega
    · rfl

theorem val_eq_zero (h : ∀ i < n, d i = 0) : val b d n = 0 := by
  rw [val_extend (Nat.zero_le n) fun i _ hi => h i hi, val_zero]

theorem val_update_succ (v : Nat) : val b (update d n v) (n + 1) = val b d n + v * b ^ n := by
  rw [val_succ, val_update v le_rfl, update_self]

/-- One step of a loop that adds up digits: of the sum `c` of the digits at `n` and the carry, the
low digit is stored and the rest is carried. -/
theorem val_carry (c : Nat) :
    val b (update d n (c % b)) (n + 1) + c / b * b ^ (n + 1) = val b d n + c * b ^ n := by
  rw [val_update_succ, Nat.pow_succ']
  have := congrArg (· * b ^ n) (mod_add_div c b)
  rw [← this]
  ring

/-- The same for differences, where the carry may be negative. -/
theorem val_borrow (hb : 0 < b) (c : Int) :
    (val b (update d n (c % b).toNat) (n + 1) : Int) + c / b * b ^ (n + 1) =
      val b d n + c * b ^ n := by
  have hm : (((c % b).toNat : Nat) : Int) = c % b := toNat_of_nonneg (emod_nonneg c (by omega))
  have := congrArg (· * (b : Int) ^ n) (emod_add_mul_ediv c b)
  rw [val_update_succ]
  push_cast [hm]
  rw [← this]
  ring

/-- A store below `n` replaces one summand. -/
theorem val_update_lt (v : Nat) (h : i < n) :
    val b (update d i v) n + d i * b ^ i = val b d n + v * b ^ i := by
  induction n with
  | zero => omega
  | succ n ih =>
    rcases Nat.lt_succ_iff_lt_or_eq.1 h with hlt | rfl
    · rw [val_succ, val_succ, update_of_ne (by omega)]
      have := ih hlt
      omega
    · rw [val_update_succ, val_succ]
      omega

/-- One step of a loop that adds to the number itself: `c` is added at `i`, and what does not fit the
digit there is carried to `i + 1`. -/
theorem val_add_carry (c : Nat) (h : i < n) :
    val b (update d i ((d i + c) % b)) n + (d i + c) / b * b ^ (i + 1) = val b d n + c * b ^ i := by
  have hv := val_update_lt (b := b) (d := d) ((d i + c) % b) h
  have hsm := congrArg (· * b ^ i) (mod_add_div (d i + c) b)
  have hp : b * ((d i + c) / b) * b ^ i = (d i + c) / b * b ^ (i + 1) := by ring
  simp only [Nat.add_mul] at hsm
  omega

theorem val_cons (b : Nat) (d : Nat → Nat) (n : Nat) :
    val b d (n + 1) = d 0 + b * val b (fun i => d (i + 1)) n := by
  rw [Nat.add_comm n 1, val_add, val_one, Nat.pow_one]
  simp only [Nat.add_comm 1]

/-- A number moved up by `m` digits. -/
theorem val_shift (hl : ∀ i < m, d i = 0) (hh : ∀ i < n, d (m + i) = e i) :
    val b d (m + n) = val b e n * b ^ m := by
  rw [val_add, val_eq_zero hl, val_congr hh, Nat.zero_add, Nat.mul_comm]

theorem carry_eq_zero {r t p : Nat} {c : Int} (hr : r < p) (ht : t < p) (h : r + c * p = t) :
    c = 0 := by
  rcases Int.lt_trichotomy c 0 with hc | hc | hc
  · have := Int.mul_le_mul_of_nonneg_right (show c ≤ -1 by omega) (natCast_nonneg p)
    omega
  · exact hc
  · have := Int.mul_le_mul_of_nonneg_right (show 1 ≤ c by omega) (natCast_nonneg p)
    omega

theorem val_lt (hb : 1 < b) (h : ∀ i < n, d i < b) : val b d n < b ^ n := by
  have := ofDigits_lt_base_pow_length hb (l := (List.range n).map d) (by simpa using h)
  simpa [val] using this

theorem val_mono (h : m ≤ n) : val b d m ≤ val b d n := by
  obtain ⟨k, rfl⟩ := Nat.exists_eq_add_of_le h
  rw [val_add]
  omega

theorem val_eq_zero_iff (hb : 0 < b) : val b d n = 0 ↔ ∀ i < n, d i = 0 := by
  refine ⟨fun h i hi => ?_, val_eq_zero⟩
  have hle := val_mono (b := b) (d := d) hi
  rw [val_succ] at hle
  have : d i * b ^ i = 0 := by omega
  exact (Nat.mul_eq_zero.1 this).resolve_right (Nat.pow_pos hb).ne'

theorem pow_le_val (hn : 0 < n) (h : d (n - 1) ≠ 0) : b ^ (n - 1) ≤ val b d n := by
  obtain _ | k := n
  · omega
  rw [val_succ]
  have : 1 * b ^ k ≤ d k * b ^ k := Nat.mul_le_mul_right _ (one_le_iff_ne_zero.2 h)
  simp only [Nat.add_sub_cancel]
  omega

/-- The digits decide from the top: above `i` they agree, and at `i` the first number's is less. -/
theorem val_lt_val (hb : 1 < b) (hi : i < n) (hd : ∀ k < n, d k < b)
    (heq : ∀ k, i < k → k < n → d k = e k) (hlt : d i < e i) : val b d n < val b e n := by
  obtain ⟨k, rfl⟩ : ∃ k, n = (i + 1) + k := ⟨n - (i + 1), by omega⟩
  have hl := val_lt hb (n := i) fun k hk => hd k (by omega)
  have ht : (d i + 1) * b ^ i ≤ e i * b ^ i := Nat.mul_le_mul_right _ hlt
  have hh : val b (fun j => d (i + 1 + j)) k = val b (fun j => e (i + 1 + j)) k :=
    val_congr fun j hj => heq _ (by omega) (by omega)
  rw [Nat.add_mul] at ht
  rw [val_add b d, val_add b e, hh, val_succ, val_succ]
  omega

/-- The digits from `i` on are the quotient by `b ^ i`. -/
theorem val_div_pow (hb : 1 < b) (hd : ∀ k < i, d k < b) :
    val b d (i + n) / b ^ i = val b (fun k => d (i + k)) n := by
  have hl := val_lt hb hd
  rw [val_add, add_mul_div_left _ _ (Nat.pow_pos (by omega)), div_eq_of_lt hl, Nat.zero_add]

theorem val_mod_pow (hb : 1 < b) (hd : ∀ k < i, d k < b) : val b d (i + n) % b ^ i = val b d i := by
  rw [val_add, add_mul_mod_self_left, mod_eq_of_lt (val_lt hb hd)]

/-- The two leading digits below `i + 2`, and the first of them. -/
theorem val_leading (hb : 1 < b) (hd : ∀ k, d k < b) (h : i + 2 ≤ n) :
    val b d n % b ^ (i + 2) / b ^ i = d (i + 1) * b + d i ∧
      val b d n % b ^ (i + 2) / b ^ (i + 1) = d (i + 1) := by
  obtain ⟨k, rfl⟩ := Nat.exists_eq_add_of_le h
  rw [val_mod_pow hb fun k _ => hd k]
  have hl : val b d (i + 2) / b ^ i = d (i + 1) * b + d i := by
    rw [val_div_pow hb fun k _ => hd k, val_succ, val_one, Nat.pow_one, Nat.add_zero, Nat.add_comm]
  refine ⟨hl, ?_⟩
  rw [Nat.pow_succ, ← Nat.div_div_eq_div_mul, hl, Nat.mul_comm, mul_add_div (by omega),
    div_eq_of_lt (hd i), Nat.add_zero]

theorem val_digit (hb : 1 < b) (hi : i < n) (hd : ∀ k ≤ i, d k < b) :
    val b d n / b ^ i % b = d i := by
  obtain ⟨k, rfl⟩ : ∃ k, n = i + (k + 1) := ⟨n - i - 1, by omega⟩
  rw [val_div_pow hb fun k hk => hd k (by omega), val_cons, add_mul_mod_self_left,
    Nat.add_zero, mod_eq_of_lt (hd i le_rfl)]

/-- The bits of a number are the bits of its digits, when the base is a power of two. -/
theorem testBit_val {w : Nat} (hw : 0 < w) (hd : ∀ i < n, d i < 2 ^ w) (k : Nat) :
    (val (2 ^ w) d n).testBit k = (decide (k / w < n) && (d (k / w)).testBit (k % w)) := by
  have hk := div_add_mod k w
  have hm := mod_lt k hw
  induction n with
  | zero => simp
  | succ n ih =>
    have hl : val (2 ^ w) d n < 2 ^ (w * n) := by
      rw [Nat.pow_mul]
      exact val_lt (Nat.one_lt_two_pow (by omega)) fun i hi => hd i (by omega)
    rw [val_succ, ← Nat.pow_mul, Nat.add_comm, Nat.mul_comm (d n),
      testBit_two_pow_mul_add _ hl, ih fun i hi => hd i (by omega)]
    rcases Nat.lt_trichotomy (k / w) n with h | h | h
    · have : w * (k / w) + w ≤ w * n := by
        rw [← mul_succ]
        exact Nat.mul_le_mul_left w h
      rw [if_pos (by omega)]
      simp [h, lt_succ_of_lt h]
    · subst h
      rw [if_neg (by omega), show k - w * (k / w) = k % w by omega]
      simp
    have : w * n + w ≤ w * (k / w) := by
      rw [← mul_succ]
      exact Nat.mul_le_mul_left w h
    rw [if_neg (by omega), testBit_lt_two_pow
      (Nat.lt_of_lt_of_le (hd n (by omega)) (Nat.pow_le_pow_right (by decide) (by omega)))]
    simp [show ¬ k / w < n + 1 by omega]

end Digits
