import Mathlib.Tactic.NormNum

/-!
# Wrap-around arithmetic

Facts about `Int64` in terms of the integers its values stand for: an operation is exact up to a
multiple of `2 ^ 64`, and two counters that move together keep their distance on the circle of
64-bit values.
-/

namespace Int64

/-- A result is off the exact one by a multiple of `2 ^ 64`, and in range. -/
theorem exists_toInt {a : Int64} {x : Int} (h : a.toInt = x.bmod (2 ^ 64)) :
    ∃ k : Int, a.toInt = x + k * 2 ^ 64 ∧ -2 ^ 63 ≤ a.toInt ∧ a.toInt < 2 ^ 63 := by
  refine ⟨-(x.bdiv (2 ^ 64)), ?_, a.le_toInt, a.toInt_lt⟩
  have hd := Int.bmod_add_bdiv x (2 ^ 64)
  omega

theorem exists_toInt_add (a b : Int64) : ∃ k : Int, (a + b).toInt = a.toInt + b.toInt + k * 2 ^ 64 ∧
    -2 ^ 63 ≤ (a + b).toInt ∧ (a + b).toInt < 2 ^ 63 :=
  exists_toInt (toInt_add a b)

theorem exists_toInt_sub (a b : Int64) : ∃ k : Int, (a - b).toInt = a.toInt - b.toInt + k * 2 ^ 64 ∧
    -2 ^ 63 ≤ (a - b).toInt ∧ (a - b).toInt < 2 ^ 63 :=
  exists_toInt (toInt_sub a b)

theorem exists_toInt_ofNat (n : Nat) : ∃ k : Int, (ofNat n).toInt = n + k * 2 ^ 64 ∧
    -2 ^ 63 ≤ (ofNat n).toInt ∧ (ofNat n).toInt < 2 ^ 63 :=
  exists_toInt (toInt_ofNat' ..)

variable {a b x c u y : Int64} {n : Nat}

/-- A sum whose value is in range is exact. -/
theorem toInt_add_ofNat (h : a.toInt + n < 2 ^ 63) : (a + ofNat n).toInt = a.toInt + n := by
  obtain ⟨k, hk⟩ := exists_toInt_add a (ofNat n)
  obtain ⟨j, hj⟩ := exists_toInt_ofNat n
  have := a.le_toInt
  omega

theorem toInt_sub_ofNat (h : -2 ^ 63 ≤ a.toInt - n) : (a - ofNat n).toInt = a.toInt - n := by
  obtain ⟨k, hk⟩ := exists_toInt_sub a (ofNat n)
  obtain ⟨j, hj⟩ := exists_toInt_ofNat n
  have := a.toInt_lt
  omega

/-- A counter that has been below a limit at every earlier step has not wrapped around. -/
theorem toInt_count_up {limit : Int64} : ∀ {n : Nat},
    (∀ j < n, a + ofNat j < limit) → (a + ofNat n).toInt = a.toInt + n
  | 0, _ => by
    have := a.toInt_lt
    exact toInt_add_ofNat (by omega)
  | n + 1, h => by
    have hn := toInt_count_up (n := n) fun j hj => h j (by omega)
    have hlt := lt_iff_toInt_lt.1 (h n (by omega))
    have := limit.toInt_lt
    exact toInt_add_ofNat (by push_cast; omega)

theorem toInt_count_down {limit : Int64} : ∀ {n : Nat},
    (∀ j < n, limit < a - ofNat j) → (a - ofNat n).toInt = a.toInt - n
  | 0, _ => by
    have := a.le_toInt
    exact toInt_sub_ofNat (by omega)
  | n + 1, h => by
    have hn := toInt_count_down (n := n) fun j hj => h j (by omega)
    have hlt := lt_iff_toInt_lt.1 (h n (by omega))
    have := limit.le_toInt
    exact toInt_sub_ofNat (by push_cast; omega)

/-- A counter that starts below a value and has never been equal to it is still below it. -/
theorem count_up_lt_of_ne (h0 : a < b) : ∀ {n : Nat},
    (∀ k ≤ n, a + ofNat k ≠ b) → a.toInt + n < b.toInt
  | 0, _ => by
    have := lt_iff_toInt_lt.1 h0
    omega
  | n + 1, h => by
    have hn := count_up_lt_of_ne h0 (n := n) fun k hk => h k (by omega)
    have := b.toInt_lt
    have hsc : (a + ofNat (n + 1)).toInt = a.toInt + (n + 1 : Nat) :=
      toInt_add_ofNat (by push_cast; omega)
    have hne : (a + ofNat (n + 1)).toInt ≠ b.toInt := fun heq => h _ le_rfl (toInt_inj.1 heq)
    omega

theorem count_down_lt_of_ne (h0 : b < a) : ∀ {n : Nat},
    (∀ k ≤ n, a - ofNat k ≠ b) → b.toInt < a.toInt - n
  | 0, _ => by
    have := lt_iff_toInt_lt.1 h0
    omega
  | n + 1, h => by
    have hn := count_down_lt_of_ne h0 (n := n) fun k hk => h k (by omega)
    have := b.le_toInt
    have hsc : (a - ofNat (n + 1)).toInt = a.toInt - (n + 1 : Nat) :=
      toInt_sub_ofNat (by push_cast; omega)
    have hne : (a - ofNat (n + 1)).toInt ≠ b.toInt := fun heq => h _ le_rfl (toInt_inj.1 heq)
    omega

/-- The value is at most `n` away from zero. -/
def Within (n : Int) (a : Int64) : Prop := -n ≤ a.toInt ∧ a.toInt ≤ n

section
variable {m n : Int} (ha : Within m a) (hb : Within n b) (h : m + n < 2 ^ 62)
include ha hb h

theorem Within.add : Within (m + n) (a + b) := by
  obtain ⟨k, hk⟩ := exists_toInt_add a b
  obtain ⟨⟨_, _⟩, _, _⟩ := And.intro ha hb
  constructor <;> omega

theorem Within.sub : Within (m + n) (a - b) := by
  obtain ⟨k, hk⟩ := exists_toInt_sub a b
  obtain ⟨⟨_, _⟩, _, _⟩ := And.intro ha hb
  constructor <;> omega

end

theorem Within.mono {m n : Int} (h : Within m a) (hmn : m ≤ n) : Within n a :=
  ⟨by have := h.1; omega, h.2.trans hmn⟩

variable {off offset length : Int64} {m n : Int}

theorem toInt_neg_sub (hf : Within n off) (h : n < 2 ^ 62) :
    (-1 - off).toInt = -1 - off.toInt ∧ (1 - off).toInt = 1 - off.toInt := by
  obtain ⟨k1, h1⟩ := exists_toInt_sub (-1) off
  obtain ⟨k2, h2⟩ := exists_toInt_sub 1 off
  have h3 := toInt_one
  have h4 : (-1 : Int64).toInt = -1 := by decide
  obtain ⟨_, _⟩ := hf
  constructor <;> omega

/-- The limit `offset + length` moved by `-1 - off` does not wrap around, if the constants are small
and do not exceed zero where there is a length. The limit itself can only wrap around downwards. -/
theorem toInt_limit (ho : Within m offset) (hf : Within n off) (hs : m + n < 2 ^ 62)
    (hl : 0 ≤ length.toInt) (hw : length.toInt = 0 ∨ (offset + (-1 - off)).toInt ≤ 0) :
    (offset + length + (-1 - off)).toInt = offset.toInt + (-1 - off.toInt) + length.toInt ∧
      (offset + length).toInt ≤ offset.toInt + length.toInt := by
  obtain ⟨⟨_, _⟩, _, _⟩ := And.intro ho hf
  have hsum : (offset + (-1 - off)).toInt = offset.toInt + (-1 - off.toInt) := by
    obtain ⟨i, hi⟩ := exists_toInt_add offset (-1 - off)
    have := (toInt_neg_sub hf (by omega)).1
    omega
  have := length.toInt_lt
  rw [Int64.add_assoc, Int64.add_comm length, ← Int64.add_assoc, ← hsum]
  constructor
  · obtain ⟨i, hi⟩ := exists_toInt_add (offset + (-1 - off)) length
    omega
  · obtain ⟨i, hi⟩ := exists_toInt_add offset length
    omega

/-- `x` follows the counter `c` exactly `off` below it. While `c` counts up and is below the limit,
`x` has not wrapped around and is no higher than the limit moved by `-1 - off`. -/
theorem follow_up {k : Nat} (hc : c.toInt = x.toInt + off.toInt) (ho : Within m offset)
    (hf : Within n off) (hs : m + n < 2 ^ 62) (hl : 0 ≤ length.toInt)
    (hw : length.toInt = 0 ∨ (offset + (-1 - off)).toInt ≤ 0)
    (hcn : (c + ofNat k).toInt = c.toInt + k) (hlt : c + ofNat k < offset + length) :
    x ≤ x + ofNat k ∧ x + ofNat k ≤ offset + length + (-1 - off) := by
  obtain ⟨hmx, hle⟩ := toInt_limit ho hf hs hl hw
  have hlt := lt_iff_toInt_lt.1 hlt
  have hxk : x.toInt + k ≤ (offset + length + (-1 - off)).toInt := by
    rw [hmx]
    omega
  rw [le_iff_toInt_le, le_iff_toInt_le, toInt_add_ofNat (hxk.trans_lt (toInt_lt _))]
  exact ⟨by omega, hxk⟩

theorem follow_down {k : Nat} (hc : c.toInt = x.toInt + off.toInt) (hu : Within m u)
    (hf : Within n off) (hs : m + n < 2 ^ 62) (hcn : (c - ofNat k).toInt = c.toInt - k)
    (hlt : u < c - ofNat k) : x - ofNat k ≤ x ∧ u + (1 - off) ≤ x - ofNat k := by
  have hlt := lt_iff_toInt_lt.1 hlt
  have hsum : (u + (1 - off)).toInt = u.toInt + (1 - off.toInt) := by
    obtain ⟨⟨_, _⟩, _, _⟩ := And.intro hu hf
    obtain ⟨i, hi⟩ := exists_toInt_add u (1 - off)
    have := (toInt_neg_sub hf (by omega)).2
    omega
  have hxk : (u + (1 - off)).toInt ≤ x.toInt - k := by
    rw [hsum]
    omega
  rw [le_iff_toInt_le, le_iff_toInt_le, toInt_sub_ofNat ((le_toInt _).trans hxk)]
  exact ⟨by omega, hxk⟩

theorem lt_add_one_of_le (h : x ≤ y) (hy : y < maxValue) : x < y + 1 := by
  have h := le_iff_toInt_le.1 h
  have hy := lt_iff_toInt_lt.1 hy
  obtain ⟨k, hk⟩ := exists_toInt_add y 1
  have h1 := toInt_one
  have hm := toInt_maxValue
  have := y.le_toInt
  rw [lt_iff_toInt_lt]
  omega

theorem sub_one_lt_of_le (h : y ≤ x) (hy : minValue < y) : y + -1 < x := by
  have h := le_iff_toInt_le.1 h
  have hy := lt_iff_toInt_lt.1 hy
  obtain ⟨k, hk⟩ := exists_toInt_add y (-1)
  have h1 : (-1 : Int64).toInt = -1 := by decide
  have hm := toInt_minValue
  have := y.toInt_lt
  rw [lt_iff_toInt_lt]
  omega

theorem add_length_lt_max {offset length : Int64} (h : offset < 0) (hl : 0 ≤ length) :
    offset + length < maxValue := by
  have h := lt_iff_toInt_lt.1 h
  have hl := le_iff_toInt_le.1 hl
  obtain ⟨k, hk⟩ := exists_toInt_add offset length
  have h0 := toInt_zero
  have hm := toInt_maxValue
  have := offset.le_toInt
  have := length.toInt_lt
  rw [lt_iff_toInt_lt]
  omega

/-- Two values at a distance that is not positive are in order, if the upper one is not
negative. -/
theorem le_of_sub_nonpos {d : Int64} (hd : x - y = d) (h : d ≤ 0) (hy : 0 ≤ y) : x ≤ y := by
  have h := le_iff_toInt_le.1 h
  have hy := le_iff_toInt_le.1 hy
  obtain ⟨k, hk⟩ := exists_toInt_sub x y
  rw [hd] at hk
  have h0 := toInt_zero
  have := d.le_toInt
  have := x.toInt_lt
  rw [le_iff_toInt_le]
  omega

/-- Adding the same value to both ends of a range, when the ends stay in order: both ends wrapped
around, or neither did. -/
theorem add_mem_range (ha : a ≤ x) (hb : x ≤ b) (h : a + c ≤ b + c) :
    a + c ≤ x + c ∧ x + c ≤ b + c := by
  have ha := le_iff_toInt_le.1 ha
  have hb := le_iff_toInt_le.1 hb
  have h := le_iff_toInt_le.1 h
  obtain ⟨k1, h1⟩ := exists_toInt_add a c
  obtain ⟨k2, h2⟩ := exists_toInt_add b c
  obtain ⟨k3, h3⟩ := exists_toInt_add x c
  have := a.le_toInt
  have := b.toInt_lt
  rw [le_iff_toInt_le, le_iff_toInt_le]
  omega

/-- Adding the same value to a constant lower end that does not wrap around and to an upper end
`offset + length` with a length that is not negative, where the offset stays non-positive. -/
theorem add_mem_length {offset length : Int64} (ha : a ≤ x) (hb : x ≤ offset + length)
    (hl : 0 ≤ length) (ho : offset ≤ 0) (hc : offset + c ≤ 0)
    (hw : (0 ≤ c ∧ a ≤ a + c) ∨ (c < 0 ∧ a + c < a)) :
    a + c ≤ x + c ∧ x + c ≤ offset + c + length := by
  have ha := le_iff_toInt_le.1 ha
  have hb := le_iff_toInt_le.1 hb
  have hl := le_iff_toInt_le.1 hl
  have ho := le_iff_toInt_le.1 ho
  have hc := le_iff_toInt_le.1 hc
  rw [le_iff_toInt_le, le_iff_toInt_le, lt_iff_toInt_lt, lt_iff_toInt_lt] at hw
  obtain ⟨k1, h1⟩ := exists_toInt_add a c
  obtain ⟨k2, h2⟩ := exists_toInt_add offset length
  obtain ⟨k3, h3⟩ := exists_toInt_add x c
  obtain ⟨k4, h4⟩ := exists_toInt_add offset c
  obtain ⟨k5, h5⟩ := exists_toInt_add (offset + c) length
  have h0 := toInt_zero
  have := a.le_toInt
  have := x.toInt_lt
  have := c.le_toInt
  have := c.toInt_lt
  have := offset.le_toInt
  have := length.toInt_lt
  rw [le_iff_toInt_le, le_iff_toInt_le]
  omega

end Int64
