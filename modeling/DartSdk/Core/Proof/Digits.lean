import DartSdk.Core.BigInt
import DartSdk.Lib.Bits
import DartSdk.Lib.Digits
import DartSdk.Lib.Loops

/-!
# The digit functions of `_BigIntImpl` compute with numbers

`dig digits` is the digit function of a list, zero above its end. Every function on digits has one
lemma: under the bounds that its callers keep it does not fail, it writes the sum, difference, shift
or product of the numbers it reads, and the digits outside of the written window keep their value.
-/

namespace Core.Proof

open Core Digits Loops List Option Nat
open Function (update update_of_ne update_self)

/-! ## Lists and their digits -/

theorem digitBase_eq : digitBase = 2 ^ 32 := rfl

theorem and_digitMask (n : Nat) : n &&& digitMask = n % digitBase := Bits.and_low n 32

theorem shiftRight_digitBits (n : Nat) : n >>> digitBits = n / digitBase := Bits.shiftRight n 32

/-- The digit at `i`, zero above the end of the list. -/
def dig (ds : Uint32List) (i : Nat) : Nat := (ds[i]?.getD 0).toNat

theorem dig_lt (ds : Uint32List) (i : Nat) : dig ds i < digitBase := UInt32.toNat_lt _

variable {ds r x y m acc : Uint32List} {i used n no j : Nat}
  {g : Uint32List → Nat → Option Nat} {s : Uint32List × Nat} {total : Nat → Int}

theorem load_eq (h : i < ds.length) : load ds i = some (dig ds i) := by
  simp [load, dig, getElem?_eq_getElem h]

theorem store_mod (v : Nat) (h : i < ds.length) :
    ∃ digits', store ds i v = some digits' ∧ digits'.length = ds.length ∧
      dig digits' = update (dig ds) i (v % digitBase) := by
  refine ⟨ds.set i (UInt32.ofNat v), if_pos h, length_set, funext fun k => ?_⟩
  by_cases hk : k = i
  · subst hk
    simp [dig, getElem?_set_self h, digitBase_eq]
  · simp [dig, hk, getElem?_set_ne (Ne.symm hk)]

theorem store_spec {v : Nat} (h : i < ds.length) (hv : v < digitBase) :
    ∃ digits', store ds i v = some digits' ∧ digits'.length = ds.length ∧
      dig digits' = update (dig ds) i v := by
  have := store_mod v h
  rwa [mod_eq_of_lt hv] at this

theorem length_newDigits (n : Nat) : (newDigits n).length = n + n % 2 := by
  simp [newDigits, and_one_is_mod]

theorem le_newDigits {k n : Nat} (h : k ≤ n + n % 2) : k ≤ (newDigits n).length := by
  rw [length_newDigits]
  exact h

theorem dig_newDigits (n : Nat) : dig (newDigits n) = fun _ => 0 := by
  funext i
  simp only [dig, newDigits, getElem?_replicate]
  split <;> rfl

theorem val_dig_newDigits (n k : Nat) : val digitBase (dig (newDigits n)) k = 0 :=
  val_eq_zero fun i _ => congrFun (dig_newDigits n) i

theorem val_dig_lt (ds : Uint32List) (n : Nat) : val digitBase (dig ds) n < digitBase ^ n :=
  val_lt (by decide) fun i _ => dig_lt ds i

/-- The digits of an operand, when `resultDigits` is the list of the result. -/
def Operand.digs (x : Operand) (resultDigits : Uint32List) : Nat → Nat :=
  match x with
  | .array ds => dig ds
  | .result => dig resultDigits

def Operand.length (x : Operand) (resultDigits : Uint32List) : Nat :=
  match x with
  | .array ds => ds.length
  | .result => resultDigits.length

theorem Operand.load_eq {x : Operand} (h : i < Operand.length x r) :
    x.load r i = some (Operand.digs x r i) := by
  cases x <;> exact Proof.load_eq h

theorem Operand.digs_lt (x : Operand) (r : Uint32List) (i : Nat) : Operand.digs x r i < digitBase := by
  cases x <;> exact dig_lt ..

variable {r' acc' xs : Uint32List}

theorem Operand.length_congr {x : Operand} (h : r'.length = r.length) : Operand.length x r' =
    Operand.length x r := by
  cases x
  · rfl
  · exact h

/-- Where the result still has its digits, so has the operand. -/
theorem Operand.digs_congr {x : Operand} (h : dig r' i = dig r i) : Operand.digs x r' i =
    Operand.digs x r i := by
  cases x
  · rfl
  · exact h

/-! ## Normalization and comparison -/

theorem normalize_spec (h : used ≤ ds.length) :
    ∃ used', normalize used ds = some used' ∧ used' ≤ used ∧
      (∀ i, used' ≤ i → i < used → dig ds i = 0) ∧ (0 < used' → dig ds (used' - 1) ≠ 0) := by
  induction used with
  | zero => exact ⟨0, rfl, le_rfl, fun i _ hi => absurd hi (by omega), fun h => absurd h (by omega)⟩
  | succ used ih =>
    rw [normalize, load_eq (by omega)]
    by_cases h0 : dig ds used = 0
    · obtain ⟨used', hn, hle, hz, ht⟩ := ih (by omega)
      refine ⟨used', by simp [h0, hn], by omega, fun i hi hi' => ?_, ht⟩
      rcases Nat.lt_succ_iff_lt_or_eq.1 hi' with hlt | rfl
      · exact hz i hi hlt
      · exact h0
    · exact ⟨used + 1, by simp [h0], le_rfl, fun i hi hi' => absurd hi' (by omega), fun _ => h0⟩

theorem compareBelow_spec (hx : n ≤ x.length) (hy : n ≤ y.length) :
    ∃ c : Int, compareBelow x y n = some c ∧ (c < 0 ↔ val digitBase (dig x) n < val digitBase (dig y) n) ∧
      (c = 0 ↔ val digitBase (dig x) n = val digitBase (dig y) n) := by
  induction n with
  | zero => exact ⟨0, rfl, by simp, by simp⟩
  | succ n ih =>
    obtain ⟨c, hc, hlt, heq⟩ := ih (by omega) (by omega)
    rw [compareBelow, load_eq (by omega), load_eq (by omega)]
    have hb {u v : Uint32List} (h : dig u n < dig v n) :
        val digitBase (dig u) (n + 1) < val digitBase (dig v) (n + 1) :=
      val_lt_val (by decide) (lt_succ_self n) (fun k _ => dig_lt u k)
        (fun k hk hk' => absurd hk' (by omega)) h
    rcases Nat.lt_trichotomy (dig x n) (dig y n) with h | h | h
    · have := hb h
      refine ⟨(dig x n : Int) - dig y n, ?_, by omega, by omega⟩
      simp [show ((dig x n : Int) - dig y n ≠ 0) by omega]
    · refine ⟨c, by simp [h, hc], ?_, ?_⟩
      · rw [val_succ, val_succ, h, Nat.add_lt_add_iff_right]
        exact hlt
      · rw [val_succ, val_succ, h, Nat.add_right_cancel_iff]
        exact heq
    · have := hb h
      refine ⟨(dig x n : Int) - dig y n, ?_, by omega, by omega⟩
      simp [show ((dig x n : Int) - dig y n ≠ 0) by omega]

/-- More digits, the top one not zero: a larger number. -/
theorem val_dig_lt_of_lt {m : Nat} (h : m < n) (ht : dig y (n - 1) ≠ 0) :
    val digitBase (dig x) m < val digitBase (dig y) n :=
  calc val digitBase (dig x) m < digitBase ^ m := val_dig_lt x m
    _ ≤ digitBase ^ (n - 1) := Nat.pow_le_pow_right (by decide) (by omega)
    _ ≤ val digitBase (dig y) n := pow_le_val (by omega) ht

/-- `_compareDigits` compares the numbers, when a longer one has no leading zero. -/
theorem compareDigits_spec {m : Nat} (hx : m ≤ x.length) (hy : n ≤ y.length)
    (hxt : n < m → dig x (m - 1) ≠ 0) (hyt : m < n → dig y (n - 1) ≠ 0) :
    ∃ c : Int, compareDigits x m y n = some c ∧ (c < 0 ↔ val digitBase (dig x) m < val digitBase (dig y) n) ∧
      (c = 0 ↔ val digitBase (dig x) m = val digitBase (dig y) n) := by
  rw [compareDigits]
  rcases Nat.lt_trichotomy m n with h | rfl | h
  · have := val_dig_lt_of_lt (x := x) h (hyt h)
    rw [if_neg (by omega)]
    exact ⟨_, rfl, by omega, by omega⟩
  · simpa using compareBelow_spec hx hy
  · have := val_dig_lt_of_lt (x := y) h (hxt h)
    rw [if_neg (by omega)]
    exact ⟨_, rfl, by omega, by omega⟩

/-! ## Loops that fill digits -/

/-- A loop that runs upwards over `i = a, …, a + n - 1` and stores a digit `f i` at `t i = i - c`. It
may read the result where it has not stored yet. -/
theorem fillUp {a c : Nat} {t f : Nat → Nat}
    (ht : ∀ i, a ≤ i → i < a + n → t i + c = i) (hf : ∀ i, a ≤ i → i < a + n → f i < digitBase)
    (hrd : ∀ i r', a ≤ i → i < a + n → r'.length = r.length →
      (∀ k, i ≤ k + c → dig r' k = dig r k) → g r' i = some (f i))
    (hr : a + n ≤ r.length + c) :
    ∃ r', (List.range' a n).foldlM (fun r i => do store r (t i) (← g r i)) r = some r' ∧
      r'.length = r.length ∧
      ∀ k, dig r' k = if a ≤ k + c ∧ k + c < a + n then f (k + c) else dig r k := by
  exact foldlM_range' (fun r i => do store r (t i) (← g r i))
    (fun i r' => r'.length = r.length ∧
      ∀ k, dig r' k = if a ≤ k + c ∧ k + c < i then f (k + c) else dig r k)
    (m := a) ⟨rfl, fun k => by rw [if_neg (by omega)]⟩ (by
      rintro i hi hi' s ⟨hl, hd⟩
      have hti := ht i hi hi'
      rw [hrd i s hi hi' hl fun k hk => by rw [hd, if_neg (by omega)]]
      obtain ⟨s', hs', hl', hd'⟩ := store_spec (by omega : t i < s.length) (hf i hi hi')
      refine ⟨s', hs', hl'.trans hl, fun k => ?_⟩
      rw [hd']
      by_cases hk : k = t i
      · subst hk
        rw [update_self, if_pos (by omega), hti]
      rw [update_of_ne hk, hd]
      by_cases h : a ≤ k + c ∧ k + c < i
      · rw [if_pos h, if_pos (by omega)]
      · rw [if_neg h, if_neg (by omega)])

/-- A loop that runs downwards over `i = n - 1, …, 0` and stores a digit `f i` at `i + c`. It may read
the result where it has not stored yet. -/
theorem fillDown {c : Nat} {f : Nat → Nat} (hf : ∀ i < n, f i < digitBase)
    (hrd : ∀ i r', i < n → r'.length = r.length → (∀ k, k ≤ i + c → dig r' k = dig r k) →
      g r' i = some (f i))
    (hr : n + c ≤ r.length) :
    ∃ r', (List.range n).reverse.foldlM (fun r i => do store r (i + c) (← g r i)) r = some r' ∧
      r'.length = r.length ∧ ∀ k, dig r' k = if c ≤ k ∧ k < n + c then f (k - c) else dig r k := by
  obtain ⟨r', h, hl, hd⟩ := foldlM_range_reverse (fun r i => do store r (i + c) (← g r i))
    (fun i r' => r'.length = r.length ∧
      ∀ k, dig r' k = if i + c ≤ k ∧ k < n + c then f (k - c) else dig r k)
    (n := n) ⟨rfl, fun k => by rw [if_neg (by omega)]⟩ (by
      rintro i hi s ⟨hl, hd⟩
      rw [hrd i s hi hl fun k hk => by rw [hd, if_neg (by omega)]]
      obtain ⟨s', hs', hl', hd'⟩ := store_spec (by omega : i + c < s.length) (hf i hi)
      refine ⟨s', hs', hl'.trans hl, fun k => ?_⟩
      rw [hd']
      by_cases hk : k = i + c
      · subst hk
        rw [update_self, if_pos (by omega), Nat.add_sub_cancel]
      rw [update_of_ne hk, hd]
      by_cases h : i + 1 + c ≤ k ∧ k < n + c
      · rw [if_pos h, if_pos (by omega)]
      · rw [if_neg h, if_neg (by omega)])
  refine ⟨r', h, hl, fun k => ?_⟩
  rw [hd, Nat.zero_add]

theorem cloneDigits_spec {st stop len : Nat} (hle : st ≤ stop) (hx : stop ≤ x.length)
    (hln : stop - st ≤ len) :
    ∃ r, cloneDigits x st stop len = some r ∧ r.length = len + len % 2 ∧
      ∀ k, dig r k = if k < stop - st then dig x (st + k) else 0 := by
  obtain ⟨r, h, hl, hd⟩ := fillUp (r := newDigits len) (a := 0) (n := stop - st) (c := 0)
    (f := fun i => dig x (st + i))
    (fun i _ _ => rfl) (fun i _ _ => dig_lt ..)
    (fun i _ _ hi _ _ => load_eq (by omega)) (le_newDigits (by omega))
  rw [← range_eq_range'] at h
  refine ⟨r, h, hl.trans (length_newDigits _), fun k => ?_⟩
  rw [hd, dig_newDigits]
  simp

/-! ## Addition and subtraction -/

theorem storeCarry_spec (sum : Nat) (h : i < r.length) :
    ∃ r', storeCarry r i sum = some (r', sum / digitBase) ∧ r'.length = r.length ∧
      dig r' = update (dig r) i (sum % digitBase) := by
  obtain ⟨r', hs, hl, hd⟩ := store_spec h (v := sum &&& digitMask)
    (by rw [and_digitMask]; exact mod_lt _ (by decide))
  refine ⟨r', by rw [storeCarry, hs]; simp [shiftRight_digitBits], hl, ?_⟩
  rw [hd, and_digitMask]

/-- What the loops of `_absAdd` keep: below `i` the result and the carry make up `total i`, and from
there on the result has its old digits. -/
structure Summed (r : Uint32List) (total : Nat → Nat) (i : Nat) (s : Uint32List × Nat) : Prop where
  length : s.1.length = r.length
  value : val digitBase (dig s.1) i + s.2 * digitBase ^ i = total i
  keep : ∀ k, i ≤ k → dig s.1 k = dig r k

theorem Summed.step {total : Nat → Nat} {t : Nat} (hs : Summed r total i s) (hi : i < r.length)
    (ht : total (i + 1) = total i + t * digitBase ^ i) :
    ∃ s', storeCarry s.1 i (s.2 + t) = some s' ∧ Summed r total (i + 1) s' := by
  obtain ⟨r', hr', hl, hd⟩ := storeCarry_spec (s.2 + t) (hs.length ▸ hi)
  refine ⟨_, hr', hl.trans hs.length, ?_, fun k hk => ?_⟩
  · rw [hd, val_carry, Nat.add_mul, ht, ← hs.value]
    omega
  · rw [hd, update_of_ne (by omega)]
    exact hs.keep k (by omega)

theorem absAdd_spec (hle : no ≤ used) (hx : used ≤ x.length) (hy : no ≤ y.length)
    (hr : used < r.length) :
    ∃ r', absAdd x used y no r = some r' ∧ r'.length = r.length ∧
      val digitBase (dig r') (used + 1) = val digitBase (dig x) used + val digitBase (dig y) no ∧
      ∀ i, used < i → dig r' i = dig r i := by
  obtain ⟨s1, h1, hs1⟩ := foldlM_range (fun (s : Uint32List × Nat) i => do
      storeCarry s.1 i (s.2 + ((← load x i) + (← load y i))))
    (Summed r fun i => val digitBase (dig x) i + val digitBase (dig y) i)
    (n := no) (s := (r, 0)) ⟨rfl, by simp, fun _ _ => rfl⟩ (by
      intro i hi s hs
      rw [load_eq (by omega), load_eq (by omega)]
      exact hs.step (by omega) (by rw [val_succ, val_succ, Nat.add_mul]; omega))
  -- From here on the other number has no more digits.
  obtain ⟨s2, h2, hs2⟩ := foldlM_range' (fun (s : Uint32List × Nat) i => do
      storeCarry s.1 i (s.2 + (← load x i)))
    (Summed r fun i => val digitBase (dig x) i + val digitBase (dig y) no)
    (n := used - no) ⟨hs1.length, hs1.value, hs1.keep⟩ (by
      intro i hi hi' s hs
      rw [load_eq (by omega)]
      exact hs.step (by omega) (by rw [val_succ]; omega))
  rw [show no + (used - no) = used by omega] at hs2
  have hc : s2.2 < digitBase := by
    have hX := val_dig_lt x used
    have hY := val_dig_lt y no
    have hle := Nat.pow_le_pow_right (show 0 < digitBase by decide) hle
    have hv := hs2.value
    by_contra hc
    have : 2 * digitBase ^ used ≤ s2.2 * digitBase ^ used :=
      Nat.mul_le_mul_right _ (by have : 2 ≤ digitBase := by decide
                                 omega)
    omega
  obtain ⟨r', hr', hl, hd⟩ := store_spec (hs2.length ▸ hr : used < s2.1.length) hc
  refine ⟨r', ?_, hl.trans hs2.length, ?_, fun i hi => ?_⟩
  · exact bind_eq_some_iff.2 ⟨s1, h1, bind_eq_some_iff.2 ⟨s2, h2, hr'⟩⟩
  · rw [hd, val_update_succ, hs2.value]
  · rw [hd, update_of_ne (by omega)]
    exact hs2.keep i (by omega)

theorem storeBorrow_spec (sum : Int) (h : i < r.length) :
    ∃ r', storeBorrow r i sum = some (r', sum / digitBase) ∧ r'.length = r.length ∧
      dig r' = update (dig r) i (sum % digitBase).toNat := by
  have hlt : (sum % digitBase).toNat < digitBase := by
    have hp : (0 : Int) < digitBase := by decide
    have := Int.emod_lt_of_pos sum hp
    omega
  obtain ⟨r', hs, hl, hd⟩ := store_spec h hlt
  exact ⟨r', by rw [storeBorrow, hs]; rfl, hl, hd⟩

/-- As `Summed`, for the loops of `_absSub`. -/
structure Subtracted (r : Uint32List) (total : Nat → Int) (i : Nat) (s : Uint32List × Int) :
    Prop where
  length : s.1.length = r.length
  value : val digitBase (dig s.1) i + s.2 * digitBase ^ i = total i
  keep : ∀ k, i ≤ k → dig s.1 k = dig r k

theorem Subtracted.step {t : Int} {s : Uint32List × Int}
    (hs : Subtracted r total i s) (hi : i < r.length)
    (ht : total (i + 1) = total i + t * digitBase ^ i) :
    ∃ s', storeBorrow s.1 i (s.2 + t) = some s' ∧ Subtracted r total (i + 1) s' := by
  obtain ⟨r', hr', hl, hd⟩ := storeBorrow_spec (s.2 + t) (hs.length ▸ hi)
  refine ⟨_, hr', hl.trans hs.length, ?_, fun k hk => ?_⟩
  · rw [hd, val_borrow (by decide), Int.add_mul, ht, ← hs.value]
    omega
  · rw [hd, update_of_ne (by omega)]
    exact hs.keep k (by omega)

theorem Subtracted.load {x : Operand} {s : Uint32List × Int}
    (hs : Subtracted r total i s) (hi : i < Operand.length x r) :
    x.load s.1 i = some (Operand.digs x r i) := by
  rw [Operand.load_eq (by rwa [Operand.length_congr hs.length]),
    Operand.digs_congr (hs.keep i le_rfl)]

/-- The difference, also when the result is written over the larger number. -/
theorem absSub_spec {x : Operand} (hle : no ≤ used) (hx : used ≤ Operand.length x r)
    (hy : no ≤ y.length) (hr : used ≤ r.length)
    (hsb : val digitBase (dig y) no ≤ val digitBase (Operand.digs x r) used) :
    ∃ r', absSub x used y no r = some r' ∧ r'.length = r.length ∧
      val digitBase (dig r') used =
        val digitBase (Operand.digs x r) used - val digitBase (dig y) no ∧
      ∀ i, used ≤ i → dig r' i = dig r i := by
  obtain ⟨s1, h1, hs1⟩ := foldlM_range (fun (s : Uint32List × Int) i => do
      storeBorrow s.1 i (s.2 + ((← x.load s.1 i) - (← load y i))))
    (Subtracted r fun i => val digitBase (Operand.digs x r) i - val digitBase (dig y) i)
    (n := no) (s := (r, 0)) ⟨rfl, by simp, fun _ _ => rfl⟩ (by
      intro i hi s hs
      rw [hs.load (by omega), load_eq (by omega)]
      refine hs.step (by omega) ?_
      rw [val_succ, val_succ, Int.sub_mul]
      push_cast
      omega)
  obtain ⟨s2, h2, hs2⟩ := foldlM_range' (fun (s : Uint32List × Int) i => do
      storeBorrow s.1 i (s.2 + (← x.load s.1 i)))
    (Subtracted r fun i => val digitBase (Operand.digs x r) i - val digitBase (dig y) no)
    (n := used - no) ⟨hs1.length, hs1.value, hs1.keep⟩ (by
      intro i hi hi' s hs
      rw [hs.load (by omega)]
      refine hs.step (by omega) ?_
      rw [val_succ]
      push_cast
      omega)
  rw [show no + (used - no) = used by omega] at hs2
  refine ⟨s2.1, bind_eq_some_iff.2 ⟨s1, h1, bind_eq_some_iff.2 ⟨s2, h2, rfl⟩⟩,
    hs2.length, ?_, hs2.keep⟩
  -- Nothing is borrowed at the end: the difference is neither negative nor too large.
  have hX : val digitBase (Operand.digs x r) used < digitBase ^ used :=
    val_lt (by decide) fun i _ => Operand.digs_lt x r i
  have hv := hs2.value
  rw [← Int.natCast_pow, ← Int.natCast_sub hsb] at hv
  have hc := carry_eq_zero (val_dig_lt s2.1 used) (by omega) hv
  rw [hc] at hv
  omega

/-- Subtraction in place. -/
theorem absSub_result (hle : no ≤ used) (hy : no ≤ y.length) (hr : used ≤ r.length)
    (hsb : val digitBase (dig y) no ≤ val digitBase (dig r) used) :
    ∃ r', absSub .result used y no r = some r' ∧ r'.length = r.length ∧
      val digitBase (dig r') used = val digitBase (dig r) used - val digitBase (dig y) no ∧
      ∀ i, used ≤ i → dig r' i = dig r i :=
  absSub_spec hle hr hy hr hsb

/-! ## Multiplication -/

theorem mulAddStep_spec {k : Nat} (x carry : Nat) (hm : i + k < m.length)
    (ha : j + k < acc.length) :
    ∃ acc', mulAddStep x m i j acc carry k =
        some (acc', (dig acc (j + k) + (x * dig m (i + k) + carry)) / digitBase) ∧
      acc'.length = acc.length ∧
      dig acc' = update (dig acc) (j + k)
        ((dig acc (j + k) + (x * dig m (i + k) + carry)) % digitBase) := by
  have hsp (n : Nat) : n = n / 2 ^ 16 * 2 ^ 16 + n % 2 ^ 16 := by omega
  -- The product put together from the half digits.
  have hp : x * dig m (i + k) = (x / 2 ^ 16 * (dig m (i + k) / 2 ^ 16)) * digitBase +
      (x / 2 ^ 16 * (dig m (i + k) % 2 ^ 16) + dig m (i + k) / 2 ^ 16 * (x % 2 ^ 16)) * 2 ^ 16 +
      x % 2 ^ 16 * (dig m (i + k) % 2 ^ 16) := by
    rw [digitBase_eq]
    conv_lhs => rw [hsp x, hsp (dig m (i + k))]
    ring
  obtain ⟨acc', hs, hl, hd⟩ := store_spec ha (mod_lt _ (by decide))
  refine ⟨acc', ?_, hl, hd⟩
  simp only [mulAddStep, load_eq hm, load_eq ha, some_bind,
    show halfDigitMask = 2 ^ 16 - 1 from rfl, show halfDigitBits = 16 from rfl, Bits.and_low,
    Bits.shiftRight, Bits.shiftLeft, and_digitMask, show 2 ^ digitBits = digitBase from rfl]
  generalize x / 2 ^ 16 * (dig m (i + k) % 2 ^ 16) + dig m (i + k) / 2 ^ 16 * (x % 2 ^ 16) = ph
    at hp ⊢
  generalize x % 2 ^ 16 * (dig m (i + k) % 2 ^ 16) = ll at hp ⊢
  generalize x / 2 ^ 16 * (dig m (i + k) / 2 ^ 16) = hh at hp ⊢
  have hpl : dig acc (j + k) + (x * dig m (i + k) + carry) =
      (ll + ph % 2 ^ 16 * 2 ^ 16 + dig acc (j + k) + carry) + (ph / 2 ^ 16 + hh) * digitBase := by
    rw [hp, digitBase_eq]
    omega
  rw [hpl, add_mul_mod_self_right] at hs
  rw [hs, hpl, add_mul_div_right _ _ (by decide)]
  simp [Nat.add_assoc]

/-- What the loops of `_mulAdd` keep for the number below `T` of the digits `digs` in base `b`: with
the carry at `p` it is `total`, and outside of the digits from `j` to `T` nothing changes. -/
structure Accumulated (b : Nat) (digs : Uint32List → Nat → Nat) (acc : Uint32List)
    (j T total p : Nat) (s : Uint32List × Nat) : Prop where
  length : s.1.length = acc.length
  value : val b (digs s.1) T + s.2 * b ^ p = total
  keep : ∀ k, k < j ∨ T ≤ k → digs s.1 k = digs acc k

variable {T total b : Nat} {digs : Uint32List → Nat → Nat}

theorem Accumulated.step {p t : Nat} (hs : Accumulated b digs acc j T total p s) (hj : j ≤ p)
    (hp : p < T) (hl : acc'.length = s.1.length)
    (hd : digs acc' = update (digs s.1) p ((digs s.1 p + (t + s.2)) % b)) :
    Accumulated b digs acc j T (total + t * b ^ p) (p + 1)
      (acc', (digs s.1 p + (t + s.2)) / b) := by
  refine ⟨hl.trans hs.length, ?_, fun k hk => ?_⟩
  · have := hs.value
    rw [hd, val_add_carry _ hp, Nat.add_mul]
    omega
  · rw [hd, update_of_ne (by omega)]
    exact hs.keep k hk

theorem Accumulated.zero_carry {p : Nat} (hs : Accumulated b digs acc j T total p s)
    (hc : s.2 = 0) : Accumulated b digs acc j T total T (s.1, 0) := by
  have hvl := hs.value
  rw [hc] at hvl
  exact ⟨hs.length, by simpa using hvl, hs.keep⟩

/-- A carry is below the digit `T` if the number fits. -/
theorem Accumulated.carry_lt {p : Nat} (hs : Accumulated b digs acc j T total p s) (hb : 0 < b)
    (ht : total < b ^ T) (hc : s.2 ≠ 0) : p < T := by
  by_contra hp
  have : b ^ T ≤ s.2 * b ^ p := (Nat.pow_le_pow_right hb (by omega)).trans
    (Nat.le_mul_of_pos_left _ (Nat.pos_of_ne_zero hc))
  have := hs.value
  omega

theorem propagateCarry_spec {p fuel : Nat} (hs : Accumulated digitBase dig acc j T total p s)
    (hT : T ≤ acc.length) (ht : total < digitBase ^ T) (hj : j ≤ p) (hp : p ≤ T)
    (hf : T < p + fuel) : ∃ acc', propagateCarry fuel s.1 p s.2 = some acc' ∧
      Accumulated digitBase dig acc j T total T (acc', 0) := by
  induction fuel generalizing p s with
  | zero => omega
  | succ fuel ih =>
    rw [propagateCarry]
    by_cases hc : s.2 = 0
    · exact ⟨s.1, if_pos hc, hs.zero_carry hc⟩
    have hp := hs.carry_lt (by decide) ht hc
    have hpl : p < s.1.length := by rw [hs.length]; omega
    rw [if_neg hc, load_eq hpl]
    obtain ⟨acc', hst, hl, hd⟩ := store_spec hpl
      (v := (dig s.1 p + (0 + s.2)) % digitBase) (mod_lt _ (by decide))
    have hn := hs.step hj hp hl hd
    rw [Nat.zero_mul, Nat.add_zero] at hn
    rw [Nat.zero_add] at hst hn
    obtain ⟨acc'', h, ha⟩ := ih hn (by omega) (by omega) (by omega)
    refine ⟨acc'', ?_, ha⟩
    simp only [some_bind, and_digitMask, shiftRight_digitBits, hst]
    exact h

/-- The first loop of `_mulAdd`: a digit times a number is added from the digit `j` on. -/
theorem mulAddLoop_spec {x j0 : Nat} (hs : Accumulated digitBase dig acc j0 T total j s)
    (hm : i + n ≤ m.length) (hT : T ≤ acc.length) (hj0 : j0 ≤ j) (hj : j + n ≤ T) :
    ∃ s', (List.range n).foldlM (fun (s : Uint32List × Nat) k => mulAddStep x m i j s.1 s.2 k) s =
        some s' ∧
      Accumulated digitBase dig acc j0 T
        (total + x * val digitBase (fun k => dig m (i + k)) n * digitBase ^ j) (j + n) s' := by
  refine foldlM_range _
    (fun k s => Accumulated digitBase dig acc j0 T
      (total + x * val digitBase (fun k => dig m (i + k)) k * digitBase ^ j) (j + k) s)
    (by simpa using hs) ?_
  intro k hk s hs
  have hl := hs.length
  obtain ⟨acc', hst, hl', hd⟩ := mulAddStep_spec x s.2
    (by omega : i + k < m.length) (by omega : j + k < s.1.length)
  refine ⟨_, hst, ?_⟩
  have hnx := hs.step (by omega) (by omega) hl' hd
  rw [mul_val_succ, ← Nat.add_assoc]
  exact hnx

/-- A digit times a number is added to the accumulator from the digit `j` on, and the carry stays
below the digit `T`. -/
theorem mulAdd_spec {xIndex : Nat} (hx : xIndex < xs.length)
    (hm : i + n ≤ m.length) (hT : T ≤ acc.length) (hj : j + n ≤ T)
    (hb : val digitBase (dig acc) T +
      dig xs xIndex * val digitBase (fun k => dig m (i + k)) n * digitBase ^ j < digitBase ^ T) :
    ∃ acc', mulAdd xs xIndex m i acc j n = some acc' ∧ acc'.length = acc.length ∧
      val digitBase (dig acc') T = val digitBase (dig acc) T +
        dig xs xIndex * val digitBase (fun k => dig m (i + k)) n * digitBase ^ j ∧
      ∀ k, k < j ∨ T ≤ k → dig acc' k = dig acc k := by
  rw [mulAdd, load_eq hx]
  by_cases hx0 : dig xs xIndex = 0
  · exact ⟨acc, by simp [hx0], rfl, by simp [hx0], fun _ _ => rfl⟩
  have h0 : Accumulated digitBase dig acc j T (val digitBase (dig acc) T) j (acc, 0) :=
    ⟨rfl, by simp, fun _ _ => rfl⟩
  obtain ⟨s, hs, ha⟩ := mulAddLoop_spec h0 hm hT le_rfl hj
  obtain ⟨acc', h, ha'⟩ := propagateCarry_spec ha hT hb (by omega) hj
    (by rw [ha.length]; omega : T < j + n + (s.1.length + 1))
  refine ⟨acc', ?_, ha'.length, by simpa using ha'.value, ha'.keep⟩
  simp only [some_bind, if_neg hx0, hs]
  exact h

/-- The product of two numbers, in a list that is zero. -/
theorem mulDigitsInto_spec (hx : used ≤ x.length) (hy : no ≤ y.length)
    (hr : used + no ≤ r.length) (hz : ∀ k < used + no, dig r k = 0) :
    ∃ r', mulDigitsInto x used y no r = some r' ∧ r'.length = r.length ∧
      val digitBase (dig r') (used + no) = val digitBase (dig y) no * val digitBase (dig x) used ∧
      ∀ k, used + no ≤ k → dig r' k = dig r k := by
  refine foldlM_range (fun r i => mulAdd y i x 0 r i used)
    (fun i r' => r'.length = r.length ∧
      val digitBase (dig r') (used + no) = val digitBase (dig y) i * val digitBase (dig x) used ∧
      ∀ k, used + no ≤ k → dig r' k = dig r k)
    ⟨rfl, by rw [val_eq_zero hz, val_zero, Nat.zero_mul], fun _ _ => rfl⟩ ?_
  rintro i hi r1 ⟨hl, hv, hkp⟩
  have hn : val digitBase (dig r1) (used + no) +
      dig y i * val digitBase (fun k => dig x (0 + k)) used * digitBase ^ i =
      val digitBase (dig y) (i + 1) * val digitBase (dig x) used := by
    simp only [hv, val_succ, Nat.zero_add]
    ring
  have hb : val digitBase (dig y) (i + 1) * val digitBase (dig x) used < digitBase ^ (used + no) :=
    calc _ < digitBase ^ (i + 1) * digitBase ^ used :=
          Nat.mul_lt_mul'' (val_dig_lt ..) (val_dig_lt ..)
      _ ≤ digitBase ^ (used + no) := by
          rw [← Nat.pow_add]
          exact Nat.pow_le_pow_right (by decide) (by omega)
  obtain ⟨r', hr', hl', hv', hkp'⟩ := mulAdd_spec (by omega : i < y.length)
    (by omega : 0 + used ≤ x.length) (by omega : used + no ≤ r1.length)
    (by omega : i + used ≤ used + no) (by rw [hn]; exact hb)
  refine ⟨r', hr', hl'.trans hl, by rw [hv', hn], fun k hk => ?_⟩
  rw [hkp' k (.inr hk), hkp k hk]

end Core.Proof
