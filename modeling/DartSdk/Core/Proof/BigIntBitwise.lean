import DartSdk.Core.Proof.BigInt

/-!
# The bitwise operators of `_BigIntImpl`

The functions on absolute values combine digits, and so the bits of the magnitudes (`combine_spec`).
The operators reduce every combination of signs to them through `-(n + 1) = ~n`, and the results are
those of Mathlib's two's-complement operations on `ℤ`.

* `and_spec`, `or_spec`, `xor_spec`, `not_spec`: the operators;
* `arithmetic_spec`: **every operator returns the exact integer**, in a valid representation.
-/

namespace Core.Proof

open Core BigIntImpl Digits Total Nat

variable {s : Statics} {a b : BigIntImpl} {x y : Int} {f : Nat → Nat → Nat} {dx r : Uint32List}
  {g : Bool → Bool → Bool} {m i j : Nat}

/-! ## Digits and bits -/

/-- Digit `k` of a number of `used` digits. -/
def digitOf (digits : Uint32List) (used k : Nat) : Nat := if k < used then dig digits k else 0

theorem testBit_val_dig (ds : Uint32List) (used k : Nat) :
    (val digitBase (dig ds) used).testBit k = (digitOf ds used (k / 32)).testBit (k % 32) := by
  rw [digitBase_eq, testBit_val (by decide) fun i _ => dig_lt ds i, digitOf]
  by_cases h : k / 32 < used <;> simp [h]

/-- A bitwise operation on the digits is the operation on the numbers. -/
theorem combine_spec (hf : ∀ m n i, (f m n).testBit i = g (m.testBit i) (n.testBit i))
    {dy : Uint32List} (hx : Holds s a dx x) (hy : Holds s b dy y) {used : Nat} (neg : Bool)
    (he : r.length % 2 = 0) (hu : used ≤ r.length)
    (hr : ∀ k, dig r k = f (digitOf dx a.used k) (digitOf dy b.used k))
    (hab : ∀ k, used ≤ k → dig r k = 0) :
    Computes (createNew neg used r) s (signed neg (f x.natAbs y.natAbs)) := by
  have hv : val digitBase (dig r) used = f x.natAbs y.natAbs := by
    apply eq_of_testBit_eq
    intro k
    rw [hx.natAbs, hy.natAbs, hf, testBit_val_dig, testBit_val_dig, testBit_val_dig, ← hf, ← hr,
      digitOf]
    split_ifs with h
    · rfl
    · rw [hab _ (by omega)]
  exact createNew_spec he hu (fun _ => hab _ le_rfl) (congrArg _ hv)

theorem combineDigits_spec {dy : Uint32List}
    (hf : ∀ i j, i < digitBase → j < digitBase → f i j < digitBase) (hx : m ≤ dx.length)
    (hy : m ≤ dy.length) (hr : m ≤ r.length) :
    ∃ r', combineDigits f dx dy m r = some r' ∧ r'.length = r.length ∧
      ∀ k, dig r' k = if k < m then f (dig dx k) (dig dy k) else dig r k := by
  obtain ⟨r', h, hl, hd⟩ := fillUp (r := r) (a := 0) (n := m) (c := 0)
    (g := fun _ i => do return f (← load dx i) (← load dy i)) (fun _ _ _ => rfl)
    (fun i _ _ => hf _ _ (dig_lt dx i) (dig_lt dy i))
    (fun i _ _ hi _ _ => by rw [load_eq (by omega), load_eq (by omega)]; rfl) (by omega)
  rw [← List.range_eq_range'] at h
  refine ⟨r', ?_, hl, fun k => by rw [hd]; simp⟩
  rw [combineDigits, ← h]
  congr 1
  funext r i
  simp [Option.bind_assoc]

theorem copyDigits_spec {used : Nat} (hm : m ≤ used) (hx : used ≤ dx.length) (hr : used ≤ r.length) :
    ∃ r', copyDigits dx m used r = some r' ∧ r'.length = r.length ∧
      ∀ k, dig r' k = if m ≤ k ∧ k < used then dig dx k else dig r k := by
  obtain ⟨r', h, hl, hd⟩ := fillUp (r := r) (a := m) (n := used - m) (c := 0)
    (fun _ _ _ => rfl) (fun i _ _ => dig_lt dx i)
    (fun i _ _ hi _ _ => load_eq (by omega)) (by omega)
  refine ⟨r', h, hl, fun k => ?_⟩
  rw [hd, Nat.add_zero]
  by_cases hk : m ≤ k ∧ k < used
  · rw [if_pos (by omega), if_pos hk]
  · rw [if_neg (by omega), if_neg hk]

/-! ## Absolute values -/

theorem and_lt (_ : i < digitBase) (hj : j < digitBase) : i &&& j < digitBase :=
  and_lt_two_pow i (n := 32) hj

section
variable (hi : i < digitBase) (hj : j < digitBase)
include hi hj

theorem or_lt : i ||| j < digitBase :=
  or_lt_two_pow (n := 32) hi hj

theorem xor_lt : i ^^^ j < digitBase :=
  xor_lt_two_pow (n := 32) hi hj

theorem andNot_lt : andNot i j < digitBase :=
  xor_lt hi (and_lt hi hj)

end

theorem testBit_andNot (m n i : Nat) : (andNot m n).testBit i = (m.testBit i && !n.testBit i) := by
  rw [andNot, testBit_xor, testBit_and]
  cases m.testBit i <;> cases n.testBit i <;> rfl

theorem andNot_eq_ldiff (m n : Nat) : andNot m n = Nat.ldiff m n :=
  eq_of_testBit_eq fun i => by rw [testBit_andNot, testBit_ldiff]

theorem absAndSetSign_spec (ha : Represents s a x) (hb : Represents s b y) (neg : Bool) :
    Computes (a.absAndSetSign b neg) s (signed neg (x.natAbs &&& y.natAbs)) := by
  obtain ⟨dx, hx⟩ := ha
  obtain ⟨dy, hy⟩ := hb
  have hdx := hx.used_le
  have hdy := hy.used_le
  obtain ⟨r, hr, hl, hd⟩ := combineDigits_spec (fun _ _ => and_lt)
    (by omega : min a.used b.used ≤ dx.length) (by omega : min a.used b.used ≤ dy.length)
    (le_newDigits (by omega) : min a.used b.used ≤ (newDigits (min a.used b.used)).length)
  rw [length_newDigits] at hl
  refine hx.read (hy.read (.run hr ?_))
  refine combine_spec testBit_and hx hy neg (by omega) (by omega) (fun k => ?_)
    fun k hk => by rw [hd, if_neg (by omega), dig_newDigits]
  by_cases h : k < a.used <;> by_cases h' : k < b.used <;> simp [hd, digitOf, h, h', dig_newDigits]

theorem absAndNotSetSign_spec (ha : Represents s a x) (hb : Represents s b y) (neg : Bool) :
    Computes (a.absAndNotSetSign b neg) s (signed neg (Nat.ldiff x.natAbs y.natAbs)) := by
  obtain ⟨dx, hx⟩ := ha
  obtain ⟨dy, hy⟩ := hb
  have hdx := hx.used_le
  have hdy := hy.used_le
  obtain ⟨r1, hr1, hl1, hd1⟩ := combineDigits_spec (fun _ _ => andNot_lt)
    (by omega : min a.used b.used ≤ dx.length) (by omega : min a.used b.used ≤ dy.length)
    (le_newDigits (by omega) : min a.used b.used ≤ (newDigits a.used).length)
  rw [length_newDigits] at hl1
  obtain ⟨r, hr, hl, hd⟩ := copyDigits_spec (Nat.min_le_left a.used b.used) hdx
    (by omega : a.used ≤ r1.length)
  refine hx.read (.bind (returns_digitsAt hy.heap (.run hr1 (.run hr ?_))))
  rw [← andNot_eq_ldiff]
  refine combine_spec (g := fun m n => m && !n) testBit_andNot hx hy neg (by omega)
    (by omega) (fun k => ?_) fun k hk => by
      rw [hd, if_neg (by omega), hd1, if_neg (by omega), dig_newDigits]
  by_cases h : k < a.used <;> by_cases h' : k < b.used <;>
    simp [hd, hd1, digitOf, h, h', dig_newDigits, andNot]

theorem absCombineSetSign_spec (hf : ∀ m n i, (f m n).testBit i = g (m.testBit i) (n.testBit i))
    (hlt : ∀ i j, i < digitBase → j < digitBase → f i j < digitBase) (hlf : ∀ n, f n 0 = n)
    (hrg : ∀ n, f 0 n = n) (ha : Represents s a x) (hb : Represents s b y) (neg : Bool) :
    Computes (absCombineSetSign f a b neg) s (signed neg (f x.natAbs y.natAbs)) := by
  obtain ⟨dx, hx⟩ := ha
  obtain ⟨dy, hy⟩ := hb
  have hdx := hx.used_le
  have hdy := hy.used_le
  -- The longer number goes on alone above the digits of the shorter one.
  obtain ⟨l, m, hlm, hm, hl, hab⟩ : ∃ l m,
      (if a.used < b.used then (dy, a.used) else (dx, b.used)) = (l, m) ∧
      m = min a.used b.used ∧ max a.used b.used ≤ l.length ∧
      ∀ k, m ≤ k → k < max a.used b.used →
        dig l k = f (digitOf dx a.used k) (digitOf dy b.used k) := by
    by_cases h : a.used < b.used
    · refine ⟨dy, a.used, by rw [if_pos h], by omega, by omega, fun k hk hk' => ?_⟩
      rw [digitOf, digitOf, if_neg (by omega), if_pos (by omega), hrg]
    · refine ⟨dx, b.used, by rw [if_neg h], by omega, by omega, fun k hk hk' => ?_⟩
      rw [digitOf, digitOf, if_pos (by omega), if_neg (by omega), hlf]
  obtain ⟨r1, hr1, hln1, hd1⟩ := combineDigits_spec hlt (by omega : m ≤ dx.length)
    (by omega : m ≤ dy.length)
    (le_newDigits (by omega) : m ≤ (newDigits (max a.used b.used)).length)
  rw [length_newDigits] at hln1
  obtain ⟨r, hr, hln, hd⟩ := copyDigits_spec (by omega : m ≤ max a.used b.used) hl
    (by omega : max a.used b.used ≤ r1.length)
  refine hx.read (hy.read ?_)
  rw [hlm]
  refine .run hr1 (.run hr ?_)
  refine combine_spec hf hx hy neg (by omega) (by omega) (fun k => ?_) fun k hk => by
    rw [hd, if_neg (by omega), hd1, if_neg (by omega), dig_newDigits]
  by_cases h : m ≤ k ∧ k < max a.used b.used
  · rw [hd, if_pos h, hab k h.1 h.2]
  rw [hd, if_neg h, hd1]
  split_ifs with hk
  · rw [digitOf, digitOf, if_pos (by omega), if_pos (by omega)]
  · rw [digitOf, digitOf, if_neg (by omega), if_neg (by omega), hlf, dig_newDigits]

theorem absOrSetSign_spec (ha : Represents s a x) (hb : Represents s b y) (neg : Bool) :
    Computes (a.absOrSetSign b neg) s (signed neg (x.natAbs ||| y.natAbs)) :=
  absCombineSetSign_spec testBit_or (fun _ _ => or_lt) or_zero zero_or ha hb neg

theorem absXorSetSign_spec (ha : Represents s a x) (hb : Represents s b y) (neg : Bool) :
    Computes (a.absXorSetSign b neg) s (signed neg (x.natAbs ^^^ y.natAbs)) :=
  absCombineSetSign_spec testBit_xor (fun _ _ => xor_lt) Nat.xor_zero Nat.zero_xor ha hb neg

/-! ## The operators -/

theorem ldiff_zero (m : Nat) : Nat.ldiff m 0 = m :=
  eq_of_testBit_eq (by simp [testBit_ldiff])

theorem zero_ldiff (m : Nat) : Nat.ldiff 0 m = 0 :=
  eq_of_testBit_eq (by simp [testBit_ldiff])

theorem land_zero : ∀ x, Int.land x 0 = 0
  | .ofNat m => congrArg Int.ofNat (and_zero m)
  | .negSucc m => congrArg Int.ofNat (zero_ldiff m)

theorem zero_land : ∀ x, Int.land 0 x = 0
  | .ofNat m => congrArg Int.ofNat (zero_and m)
  | .negSucc m => congrArg Int.ofNat (zero_ldiff m)

theorem lor_zero : ∀ x, Int.lor x 0 = x
  | .ofNat m => congrArg Int.ofNat (or_zero m)
  | .negSucc m => congrArg Int.negSucc (ldiff_zero m)

theorem zero_lor : ∀ x, Int.lor 0 x = x
  | .ofNat m => congrArg Int.ofNat (zero_or m)
  | .negSucc m => congrArg Int.negSucc (ldiff_zero m)

theorem xor_zero : ∀ x, Int.xor x 0 = x
  | .ofNat m => congrArg Int.ofNat (Nat.xor_zero m)
  | .negSucc m => congrArg Int.negSucc (Nat.xor_zero m)

theorem zero_xor : ∀ x, Int.xor 0 x = x
  | .ofNat m => congrArg Int.ofNat (Nat.zero_xor m)
  | .negSucc m => congrArg Int.negSucc (Nat.zero_xor m)

/-- One less than the magnitude of a negative number: its complement. -/
theorem pred_spec (ha : Represents s a (.negSucc m)) (neg : Bool) :
    Computes (a.absSubSetSign one neg) s (signed neg m) := by
  have := absSubSetSign_spec ha ⟨_, one_holds s⟩ (by simp) neg
  simpa using this

theorem succ_spec (ha : Represents s a (signed true m)) :
    Computes (a.absAddSetSign one true) s (.negSucc m) := by
  have := absAddSetSign_spec ha ⟨_, one_holds s⟩ true
  rwa [natAbs_signed] at this

section
variable (ha : Represents s a x)
include ha

theorem not_spec : Computes a.not s (-x - 1) := by
  have ⟨dx, hx⟩ := ha
  rw [BigIntImpl.not, isZero]
  by_cases h0 : a.used = 0
  · rw [hx.used_eq_zero.1 h0]
    simpa [h0] using Computes.of_represents (minusOne_represents s)
  rw [if_neg (by simpa using h0)]
  cases x with
  | ofNat m =>
    rw [hx.isNegative_ofNat, if_neg (by decide)]
    have := absAddSetSign_spec ha ⟨_, one_holds s⟩ true
    rwa [show signed true ((Int.ofNat m).natAbs + Int.natAbs 1) = -Int.ofNat m - 1 by
      simp [signed]; omega] at this
  | negSucc m =>
    rw [hx.isNegative_negSucc, if_pos rfl]
    have := pred_spec ha false
    rwa [show signed false m = -Int.negSucc m - 1 by simp [signed]] at this

theorem and_spec (hb : Represents s b y) : Computes (a.and b) s (Int.land x y) := by
  have ⟨dx, hx⟩ := ha
  have ⟨dy, hy⟩ := hb
  rw [BigIntImpl.and, isZero, isZero]
  by_cases h0 : a.used = 0 ∨ b.used = 0
  · rw [if_pos (by simpa using h0), show Int.land x y = 0 by
      rcases h0 with h0 | h0
      · rw [hx.used_eq_zero.1 h0, zero_land]
      · rw [hy.used_eq_zero.1 h0, land_zero]]
    exact .of_represents (zero_represents s)
  rw [if_neg (by simpa using h0)]
  cases x with
  | ofNat m =>
    cases y with
    | ofNat n =>
      rw [hx.isNegative_ofNat, hy.isNegative_ofNat, if_pos rfl, if_neg (by decide)]
      exact absAndSetSign_spec ha hb false
    | negSucc n =>
      rw [hx.isNegative_ofNat, hy.isNegative_negSucc, if_neg (by decide), if_neg (by decide)]
      refine (pred_spec hb false).then fun b1 s1 hs1 hb1 => ?_
      exact absAndNotSetSign_spec (ha.mono hs1) hb1 false
  | negSucc m =>
    cases y with
    | ofNat n =>
      rw [hx.isNegative_negSucc, hy.isNegative_ofNat, if_neg (by decide), if_pos rfl]
      refine (pred_spec ha false).then fun a1 s1 hs1 ha1 => ?_
      exact absAndNotSetSign_spec (hb.mono hs1) ha1 false
    | negSucc n =>
      rw [hx.isNegative_negSucc, hy.isNegative_negSucc, if_pos rfl, if_pos rfl]
      refine (pred_spec ha true).then fun a1 s1 hs1 ha1 => ?_
      refine (pred_spec (hb.mono hs1) true).then fun b1 s2 hs2 hb1 => ?_
      refine (absOrSetSign_spec (ha1.mono hs2) hb1 true).then fun c s3 hs3 hc => ?_
      rw [natAbs_signed, natAbs_signed] at hc
      exact succ_spec hc

theorem or_spec (hb : Represents s b y) : Computes (a.or b) s (Int.lor x y) := by
  have ⟨dx, hx⟩ := ha
  have ⟨dy, hy⟩ := hb
  rw [BigIntImpl.or]
  refine hx.isZero_ite (fun _ h0 => ?_) fun _ => hy.isZero_ite (fun _ h0 => ?_) fun _ => ?_
  · rw [h0, zero_lor]
    exact .of_represents hb
  · rw [h0, lor_zero]
    exact .of_represents ha
  cases x with
  | ofNat m =>
    cases y with
    | ofNat n =>
      rw [hx.isNegative_ofNat, hy.isNegative_ofNat, if_pos rfl, if_neg (by decide)]
      exact absOrSetSign_spec ha hb false
    | negSucc n =>
      rw [hx.isNegative_ofNat, hy.isNegative_negSucc, if_neg (by decide), if_neg (by decide)]
      refine (pred_spec hb true).then fun b1 s1 hs1 hb1 => ?_
      refine (absAndNotSetSign_spec hb1 (ha.mono hs1) true).then fun c s2 hs2 hc => ?_
      rw [natAbs_signed] at hc
      exact succ_spec hc
  | negSucc m =>
    cases y with
    | ofNat n =>
      rw [hx.isNegative_negSucc, hy.isNegative_ofNat, if_neg (by decide), if_pos rfl]
      refine (pred_spec ha true).then fun a1 s1 hs1 ha1 => ?_
      refine (absAndNotSetSign_spec ha1 (hb.mono hs1) true).then fun c s2 hs2 hc => ?_
      rw [natAbs_signed] at hc
      exact succ_spec hc
    | negSucc n =>
      rw [hx.isNegative_negSucc, hy.isNegative_negSucc, if_pos rfl, if_pos rfl]
      refine (pred_spec ha true).then fun a1 s1 hs1 ha1 => ?_
      refine (pred_spec (hb.mono hs1) true).then fun b1 s2 hs2 hb1 => ?_
      refine (absAndSetSign_spec (ha1.mono hs2) hb1 true).then fun c s3 hs3 hc => ?_
      rw [natAbs_signed, natAbs_signed] at hc
      exact succ_spec hc

theorem xor_spec (hb : Represents s b y) : Computes (a.xor b) s (Int.xor x y) := by
  have ⟨dx, hx⟩ := ha
  have ⟨dy, hy⟩ := hb
  rw [BigIntImpl.xor]
  refine hx.isZero_ite (fun _ h0 => ?_) fun _ => hy.isZero_ite (fun _ h0 => ?_) fun _ => ?_
  · rw [h0, zero_xor]
    exact .of_represents hb
  · rw [h0, xor_zero]
    exact .of_represents ha
  cases x with
  | ofNat m =>
    cases y with
    | ofNat n =>
      rw [hx.isNegative_ofNat, hy.isNegative_ofNat, if_pos rfl, if_neg (by decide)]
      exact absXorSetSign_spec ha hb false
    | negSucc n =>
      rw [hx.isNegative_ofNat, hy.isNegative_negSucc, if_neg (by decide), if_neg (by decide)]
      refine (pred_spec hb true).then fun b1 s1 hs1 hb1 => ?_
      refine (absXorSetSign_spec (ha.mono hs1) hb1 true).then fun c s2 hs2 hc => ?_
      rw [natAbs_signed] at hc
      exact succ_spec hc
  | negSucc m =>
    cases y with
    | ofNat n =>
      rw [hx.isNegative_negSucc, hy.isNegative_ofNat, if_neg (by decide), if_pos rfl]
      refine (pred_spec ha true).then fun a1 s1 hs1 ha1 => ?_
      refine (absXorSetSign_spec (hb.mono hs1) ha1 true).then fun c s2 hs2 hc => ?_
      rw [natAbs_signed, Nat.xor_comm] at hc
      exact succ_spec hc
    | negSucc n =>
      rw [hx.isNegative_negSucc, hy.isNegative_negSucc, if_pos rfl, if_pos rfl]
      refine (pred_spec ha true).then fun a1 s1 hs1 ha1 => ?_
      refine (pred_spec (hb.mono hs1) true).then fun b1 s2 hs2 hb1 => ?_
      have := absXorSetSign_spec (ha1.mono hs2) hb1 false
      rwa [natAbs_signed, natAbs_signed] at this

end

/-- **The operators are exact**, and their results satisfy the representation invariant. -/
theorem arithmetic_spec (ha : Represents s a x) (hb : Represents s b y) (n : Nat) :
    Computes (a.add b) s (x + y) ∧ Computes (a.sub b) s (x - y) ∧ Computes (a.mul b) s (x * y) ∧
      Computes a.neg s (-x) ∧ Computes (a.shiftLeft n) s (x * 2 ^ n) ∧
      Computes (a.shiftRight n) s (x / (2 ^ n : Nat)) ∧ Computes (a.and b) s (Int.land x y) ∧
      Computes (a.or b) s (Int.lor x y) ∧ Computes (a.xor b) s (Int.xor x y) ∧
      Computes a.not s (-x - 1) ∧
      Returns (a.compareTo b) s fun c s' => s' = s ∧ (c < 0 ↔ x < y) ∧ (c = 0 ↔ x = y) :=
  ⟨add_spec ha hb, sub_spec ha hb, mul_spec ha hb, neg_spec ha, shiftLeft_spec ha n,
    shiftRight_spec ha n, and_spec ha hb, or_spec ha hb, xor_spec ha hb, not_spec ha,
    compareTo_spec ha hb⟩

/-- A heap with two numbers of opposite sign and different length. -/
def mixedHeap : Statics := ⟨staticDigits ++ [[5, 0], [7, 1]], none, List.prefix_append ..⟩

def minusFive : BigIntImpl := ⟨true, 2, 1⟩

def twoDigits : BigIntImpl := ⟨false, 3, 2⟩

theorem minusFive_represents : Represents mixedHeap minusFive (-5) :=
  ⟨[5, 0], rfl, rfl, by decide, fun _ => rfl, fun _ => by decide, fun h => absurd h (by decide), rfl⟩

theorem twoDigits_represents : Represents mixedHeap twoDigits 4294967303 :=
  ⟨[7, 1], rfl, rfl, by decide, fun h => absurd h (by decide), fun _ => by decide,
    fun h => absurd h (by decide), rfl⟩

theorem arithmetic_mixedSigns :
    Computes (minusFive.add twoDigits) mixedHeap 4294967298 ∧
      Computes (minusFive.shiftRight 33) mixedHeap (-1) ∧
      Computes (minusFive.and twoDigits) mixedHeap (Int.land (-5) 4294967303) := by
  obtain ⟨had, -, -, -, -, hsh, han, -⟩ :=
    arithmetic_spec minusFive_represents twoDigits_represents 33
  exact ⟨had, hsh, han⟩

end Core.Proof
