import DartSdk.Core.Proof.Division

/-!
# The division loop of `_BigIntImpl`

The intrinsics treat two digits as one digit of 64 bits (`dig2`). For each of the two widths a
`View` says in which base its functions compute, and the loop is proved once, over any view: it
keeps `LongDivision.Partial` of its number in that base. The number of digits of the result need not
be a multiple of the width; the digits above them are then zero and belong to the last unit
(`Clear`). 
* `lowerQuotient_spec`: **the loop that lowers the estimate terminates** with the quotient digit.
* `divStep_spec`, `divLoop_spec`: a step, and the whole loop.
* `Started.divides_pairs`: **the loop divides**, with and without the intrinsics.
-/

namespace Core.Proof

open Core Digits LongDivision Loops Option Nat Function

/-- Digit `k` of a list of digits of 64 bits. -/
def dig2 (ds : Uint32List) (k : Nat) : Nat := dig ds (2 * k) + dig ds (2 * k + 1) * digitBase

variable {ds r args tmp ny acc m xs y : Uint32List} {k v : Nat}

theorem dig2_lt (ds : Uint32List) (k : Nat) : dig2 ds k < digitBase ^ 2 := by
  have hl := dig_lt ds (2 * k)
  have hh := dig_lt ds (2 * k + 1)
  rw [dig2]
  rw [digitBase_eq] at *
  omega

theorem val_dig2 (ds : Uint32List) (n : Nat) :
    val (digitBase ^ 2) (dig2 ds) n = val digitBase (dig ds) (2 * n) :=
  val_square ..

theorem loadPair_eq (h : 2 * k + 1 < ds.length) : loadPair ds (2 * k) = some (dig2 ds k) := by
  simp [loadPair, load_eq h, load_eq (by omega : 2 * k < ds.length), dig2]

theorem storePair_spec (h : 2 * k + 1 < ds.length) (hv : v < digitBase ^ 2) :
    ∃ ds', storePair ds (2 * k) v = some ds' ∧ ds'.length = ds.length ∧
      dig2 ds' = update (dig2 ds) k v := by
  obtain ⟨ds1, h1, hl1, hd1⟩ := store_spec (by omega : 2 * k < ds.length)
    (mod_lt v (by decide : 0 < digitBase))
  obtain ⟨ds2, h2, hl2, hd2⟩ := store_spec (by omega : 2 * k + 1 < ds1.length)
    (Nat.div_lt_of_lt_mul (by rwa [Nat.pow_two] at hv) : v / digitBase < digitBase)
  refine ⟨ds2, by rw [storePair, h1]; exact h2, hl2.trans hl1, funext fun n => ?_⟩
  by_cases hn : n = k
  · subst hn
    rw [update_self, dig2, hd2, update_self, update_of_ne (by omega), hd1, update_self,
      Nat.mul_comm]
    exact mod_add_div v digitBase
  · rw [update_of_ne hn, dig2, dig2, hd2, hd1]
    simp only [update_of_ne (by omega : 2 * n ≠ 2 * k + 1), update_of_ne (by omega : 2 * n ≠ 2 * k),
      update_of_ne (by omega : 2 * n + 1 ≠ 2 * k + 1), update_of_ne (by omega : 2 * n + 1 ≠ 2 * k)]

/-! ## `_mulAdd` -/

section MulAdd

variable {j n T total p fuel x : Nat} {s : Uint32List × Nat}

theorem propagateCarryPair_spec (hs : Accumulated (digitBase ^ 2) dig2 acc j T total p s)
    (hT : 2 * T ≤ acc.length) (ht : total < (digitBase ^ 2) ^ T) (hj : j ≤ p) (hp : p ≤ T)
    (hf : T < p + fuel) : ∃ acc', propagateCarryPair fuel s.1 (2 * p) s.2 = some acc' ∧
      Accumulated (digitBase ^ 2) dig2 acc j T total T (acc', 0) := by
  induction fuel generalizing p s with
  | zero => omega
  | succ fuel ih =>
    rw [propagateCarryPair]
    by_cases hc : s.2 = 0
    · exact ⟨s.1, if_pos hc, hs.zero_carry hc⟩
    have hp := hs.carry_lt (by decide) ht hc
    have hpl : 2 * p + 1 < s.1.length := by rw [hs.length]; omega
    obtain ⟨acc', hst, hl, hd⟩ := storePair_spec hpl
      (v := (dig2 s.1 p + (0 + s.2)) % digitBase ^ 2) (mod_lt _ (by decide))
    have hn := hs.step hj hp hl hd
    rw [Nat.zero_mul, Nat.add_zero] at hn
    rw [Nat.zero_add] at hst hn
    obtain ⟨acc'', h, ha⟩ := ih hn (by omega) (by omega) (by omega)
    refine ⟨acc'', ?_, ha⟩
    simp only [if_neg hc, loadPair_eq hpl, some_bind, hst]
    exact h

theorem mulAddPairStep_spec (hs : Accumulated (digitBase ^ 2) dig2 acc j T total (j + k) s)
    (hm : 2 * k + 1 < m.length) (hT : 2 * T ≤ acc.length) (hk : j + k < T) :
    ∃ s', mulAddPairStep x m 0 (2 * j) s.1 s.2 k = some s' ∧
      Accumulated (digitBase ^ 2) dig2 acc j T
        (total + x * dig2 m k * (digitBase ^ 2) ^ (j + k)) (j + k + 1) s' := by
  have hpl : 2 * (j + k) + 1 < s.1.length := by rw [hs.length]; omega
  obtain ⟨acc', hst, hl, hd⟩ := storePair_spec hpl
    (v := (dig2 s.1 (j + k) + (x * dig2 m k + s.2)) % digitBase ^ 2) (mod_lt _ (by decide))
  refine ⟨_, ?_, hs.step (by omega) hk hl hd⟩
  have hsum : x * dig2 m k + dig2 s.1 (j + k) + s.2 =
      dig2 s.1 (j + k) + (x * dig2 m k + s.2) := by ring
  rw [mulAddPairStep, Nat.zero_add, ← Nat.mul_add, loadPair_eq hm, loadPair_eq hpl]
  simp only [some_bind, hsum, hst]
  rfl

theorem mulAddPair_spec (hx : 2 * k + 1 < xs.length) (hm : 2 * n ≤ m.length)
    (hT : 2 * T ≤ acc.length) (hj : j + n ≤ T)
    (hb : val (digitBase ^ 2) (dig2 acc) T +
      dig2 xs k * val (digitBase ^ 2) (dig2 m) n * (digitBase ^ 2) ^ j < (digitBase ^ 2) ^ T) :
    ∃ acc', mulAddPair xs (2 * k) m 0 acc (2 * j) (2 * n) = some acc' ∧
      acc'.length = acc.length ∧ val (digitBase ^ 2) (dig2 acc') T =
        val (digitBase ^ 2) (dig2 acc) T +
          dig2 xs k * val (digitBase ^ 2) (dig2 m) n * (digitBase ^ 2) ^ j := by
  rw [mulAddPair, loadPair_eq hx, show (2 * n + 1) / 2 = n by omega]
  by_cases h0 : dig2 xs k = 0 ∨ n = 0
  · refine ⟨acc, by rw [some_bind, if_pos h0]; rfl, rfl, ?_⟩
    rcases h0 with h0 | h0 <;> simp [h0]
  obtain ⟨s, hs, ha⟩ := foldlM_range (n := n)
    (fun (s : Uint32List × Nat) i => mulAddPairStep (dig2 xs k) m 0 (2 * j) s.1 s.2 i)
    (fun i s => Accumulated (digitBase ^ 2) dig2 acc j T (val (digitBase ^ 2) (dig2 acc) T +
      dig2 xs k * val (digitBase ^ 2) (dig2 m) i * (digitBase ^ 2) ^ j) (j + i) s)
    (s := (acc, 0)) ⟨rfl, by simp, fun _ _ => rfl⟩ fun i hi s hs => by
      obtain ⟨s', h, ha⟩ := mulAddPairStep_spec (x := dig2 xs k) hs
        (by omega : 2 * i + 1 < m.length) hT (by omega)
      refine ⟨s', h, ?_⟩
      rwa [mul_val_succ, ← Nat.add_assoc]
  obtain ⟨acc', h, ha'⟩ := propagateCarryPair_spec ha hT hb (by omega) hj
    (by rw [ha.length]; omega : T < j + n + (s.1.length + 1))
  refine ⟨acc', ?_, ha'.length, by simpa using ha'.value⟩
  rw [some_bind, if_neg h0, hs, some_bind, ← Nat.mul_add]
  exact h

end MulAdd

/-! ## The estimate -/

variable {i q : Nat}

theorem estimateQuotientPair_spec (hi : 2 * (i + 1) + 1 < r.length) (ha : args.length = 4)
    (hle : dig2 r (i + 1) ≤ dig2 args 0) :
    ∃ args', estimateQuotientPair args r (2 * (i + 1) + 1) = some args' ∧ args'.length = 4 ∧
      dig2 args' 0 = dig2 args 0 ∧ ∀ q < digitBase ^ 2,
        q ≤ (dig2 r (i + 1) * digitBase ^ 2 + dig2 r i) / dig2 args 0 → q ≤ dig2 args' 1 := by
  suffices h : ∃ v, estimateQuotientPair args r (2 * (i + 1) + 1) = storePair args (2 * 1) v ∧
      v < digitBase ^ 2 ∧ ∀ q < digitBase ^ 2,
        q ≤ (dig2 r (i + 1) * digitBase ^ 2 + dig2 r i) / dig2 args 0 → q ≤ v by
    obtain ⟨v, hv, hlt, hq⟩ := h
    obtain ⟨args', h, hl, hd⟩ := storePair_spec (by omega : 2 * 1 + 1 < args.length) hlt
    refine ⟨args', hv.trans h, hl.trans ha, ?_, ?_⟩
    · rw [hd, update_of_ne (by decide)]
    · rwa [hd, update_self]
  have h0 : loadPair args divisorLowTopDigit = some (dig2 args 0) :=
    loadPair_eq (k := 0) (by omega)
  rw [estimateQuotientPair, h0, some_bind, show 2 * (i + 1) + 1 - 1 = 2 * (i + 1) by omega,
    loadPair_eq hi, some_bind]
  by_cases heq : dig2 r (i + 1) = dig2 args 0
  · exact ⟨digitBase ^ 2 - 1, if_pos heq, Nat.sub_lt (Nat.pow_pos (by decide)) Nat.one_pos,
      fun q hq _ => Nat.le_pred_of_lt hq⟩
  have hlt : dig2 r (i + 1) < dig2 args 0 := by omega
  rw [if_neg heq, show 2 * (i + 1) + 1 - 3 = 2 * i by omega, loadPair_eq (by omega), some_bind,
    if_pos hlt]
  refine ⟨_, rfl, Nat.div_lt_of_lt_mul ?_, fun q _ hq => hq⟩
  calc dig2 r (i + 1) * digitBase ^ 2 + dig2 r i < (dig2 r (i + 1) + 1) * digitBase ^ 2 := by
        rw [Nat.add_mul, Nat.one_mul]
        exact Nat.add_lt_add_left (dig2_lt r i) _
    _ ≤ dig2 args 0 * digitBase ^ 2 := Nat.mul_le_mul_right _ hlt

/-- Under the assertion the condition compares the pairs. -/
theorem belowQuotientPair_spec (ha : args.length = 4) (hi : 2 * i + 1 < r.length)
    (hle : dig2 r i ≤ dig2 args 1) :
    belowQuotientPair args r (2 * i + 1) = some (decide (dig2 r i < dig2 args 1)) := by
  have hl := dig_lt r (2 * i)
  have hq := dig_lt args 2
  have hle' : dig r (2 * i) + dig r (2 * i + 1) * digitBase ≤
      dig args 2 + dig args 3 * digitBase := hle
  rw [belowQuotientPair, load_eq (by rw [ha]; decide), load_eq hi,
    show 2 * i + 1 - 1 = 2 * i by omega, load_eq (by omega), load_eq (by rw [ha]; decide)]
  simp only [some_bind, quotientHighDigit, Core.quotientDigit]
  rw [digitBase_eq] at *
  rw [if_neg (by omega)]
  refine congrArg some ?_
  rw [← Bool.decide_or, decide_eq_decide, dig2,
    show dig2 args 1 = dig args 2 + dig args 3 * _ from rfl, digitBase_eq]
  omega

theorem decrementQuotientPair_spec (ha : args.length = 4) (hq : dig2 args 1 = q + 1) :
    ∃ args', decrementQuotientPair args = some args' ∧ args'.length = 4 ∧
      dig2 args' 0 = dig2 args 0 ∧ dig2 args' 1 = q := by
  have hl := dig_lt args 2
  have hh := dig_lt args 3
  have hq' : dig args 2 + dig args 3 * digitBase = q + 1 := hq
  rw [decrementQuotientPair, load_eq (by rw [ha]; decide), load_eq (by rw [ha]; decide)]
  simp only [some_bind, quotientHighDigit, Core.quotientDigit]
  rw [digitBase_eq] at *
  have hst : ∀ {ds : Uint32List} {k d}, k < ds.length → ∃ ds', store ds k
      (((d : Nat) - 1 : Int) % (2 ^ 32 : Nat)).toNat = some ds' ∧ ds'.length = ds.length ∧
      dig ds' = update (dig ds) k (((d : Int) - 1) % (2 ^ 32 : Nat)).toNat :=
    fun h => store_spec h (by rw [digitBase_eq]; omega)
  by_cases h0 : dig args 2 = 0
  · obtain ⟨args1, h1, hl1, hd1⟩ := @hst args 3 (dig args 3) (by omega)
    obtain ⟨args2, h2, hl2, hd2⟩ := @hst args1 2 (dig args 2) (by omega)
    refine ⟨args2, by rw [if_pos h0, h1]; exact h2, by omega, by simp [dig2, hd2, hd1], ?_⟩
    simp [dig2, hd2, hd1, digitBase_eq]
    omega
  · obtain ⟨args2, h2, hl2, hd2⟩ := @hst args 2 (dig args 2) (by omega)
    refine ⟨args2, by rw [if_neg h0]; exact h2, by omega, by simp [dig2, hd2], ?_⟩
    simp [dig2, hd2, digitBase_eq]
    omega

/-! ## Views -/

/-- How the functions of a width compute: on digits `digs` in base `base`, with the top digit of the
divisor and the estimate in `args`. -/
structure View (w : Width) where
  base : Nat
  digs : Uint32List → Nat → Nat
  top : Uint32List → Nat
  quo : Uint32List → Nat
  pos : 0 < w.d0
  base_eq : base = digitBase ^ w.d0
  digs_lt : ∀ r k, digs r k < base
  val_digs : ∀ r n, val base (digs r) n = val digitBase (dig r) (w.d0 * n)
  quo_lt : ∀ args, quo args < base
  estimate_spec : ∀ {args r i}, w.d0 * (i + 2) ≤ r.length → args.length = 4 →
    base ≤ 2 * top args → digs r (i + 1) ≤ top args →
    ∃ args', w.estimateQuotientDigit args r (w.d0 * (i + 2) - 1) = some args' ∧ args'.length = 4 ∧
      top args' = top args ∧ ∀ q < base,
        q ≤ (digs r (i + 1) * base + digs r i) / top args → q ≤ quo args'
  mulAdd_spec : ∀ {args m acc j n T}, args.length = 4 → w.d0 * n ≤ m.length →
    w.d0 * T ≤ acc.length → j + n ≤ T →
    val base (digs acc) T + quo args * val base (digs m) n * base ^ j < base ^ T →
    ∃ acc', w.mulAdd args Core.quotientDigit m 0 acc (w.d0 * j) (w.d0 * n) = some acc' ∧
      acc'.length = acc.length ∧
      val base (digs acc') T = val base (digs acc) T + quo args * val base (digs m) n * base ^ j
  isBelow_spec : ∀ {args r i}, args.length = 4 → w.d0 * (i + 1) ≤ r.length →
    digs r i ≤ quo args →
    w.isBelow args r (w.d0 * (i + 1) - 1) = some (decide (digs r i < quo args))
  lower_spec : ∀ {args r i q}, args.length = 4 → w.d0 * (i + 1) ≤ r.length → digs r i ≤ q →
    quo args = q + 1 → ∃ args', w.lower args r (w.d0 * (i + 1) - 1) =
      some (args', decide (digs r i < q)) ∧ args'.length = 4 ∧ top args' = top args ∧ quo args' = q

theorem oneDigit_mul (n : Nat) : oneDigit.d0 * n = n := Nat.one_mul n

def oneDigitView : View oneDigit where
  base := digitBase
  digs := dig
  top args := dig args divisorTopDigit
  quo args := dig args Core.quotientDigit
  pos := Nat.one_pos
  base_eq := (Nat.pow_one _).symm
  digs_lt := dig_lt
  val_digs r n := by rw [oneDigit_mul]
  quo_lt args := dig_lt args _
  estimate_spec := by
    intro args r i hi ha ht _
    rw [oneDigit_mul] at hi ⊢
    exact estimateQuotientDigit_spec hi ha (by rw [digitBase_eq] at ht; omega)
  mulAdd_spec := by
    intro args m acc j n T ha hm hT hj hb
    rw [oneDigit_mul] at hm hT ⊢
    rw [oneDigit_mul]
    obtain ⟨acc', h, hl, hv, -⟩ := mulAdd_spec
      (by rw [ha]; decide : Core.quotientDigit < args.length) (by omega : 0 + n ≤ m.length) hT
      hj (by simpa using hb)
    exact ⟨acc', h, hl, by simpa using hv⟩
  isBelow_spec := by
    intro args r i ha hi _
    rw [oneDigit_mul] at hi ⊢
    simp [oneDigit, load_eq (by rw [ha]; decide : Core.quotientDigit < args.length),
      load_eq (by omega : i < r.length)]
  lower_spec := by
    intro args r i q ha hi hle hq
    rw [oneDigit_mul] at hi ⊢
    have hql := dig_lt args Core.quotientDigit
    obtain ⟨args', h, hl, hd⟩ := store_spec
      (by rw [ha]; decide : Core.quotientDigit < args.length) (by omega : q < digitBase)
    refine ⟨args', ?_, hl.trans ha, by rw [hd]; exact update_of_ne (by decide) .., by
      rw [hd]; exact update_self ..⟩
    have hdig : ((q : Int) % digitBase).toNat = q := by
      rw [← Int.natCast_emod, Int.toNat_natCast, mod_eq_of_lt (by omega)]
    simp [oneDigit, load_eq (by rw [ha]; decide : Core.quotientDigit < args.length), hq,
      load_eq (by omega : i < r.length), hdig, h]

def digitPairView : View digitPair where
  base := digitBase ^ 2
  digs := dig2
  top args := dig2 args 0
  quo args := dig2 args 1
  pos := Nat.two_pos
  base_eq := rfl
  digs_lt := dig2_lt
  val_digs := val_dig2
  quo_lt args := dig2_lt args 1
  estimate_spec hi ha _ hle := estimateQuotientPair_spec hi ha hle
  mulAdd_spec ha hm hT hj hb := mulAddPair_spec (by omega) hm hT hj hb
  isBelow_spec := belowQuotientPair_spec
  lower_spec := by
    intro args r i q ha hi hle hq
    obtain ⟨args', h, hl, ht, hq'⟩ := decrementQuotientPair_spec ha hq
    refine ⟨args', ?_, hl, ht, hq'⟩
    refine bind_eq_some_iff.2 ⟨args', h, ?_⟩
    rw [← hq']
    exact bind_eq_some_iff.2 ⟨_, belowQuotientPair_spec hl hi (by omega), rfl⟩

/-! ## One step -/

/-- The `RU` digits of the result make up `N` units, with zeros above them. -/
structure Clear {w : Width} (V : View w) (RU N : Nat) (r : Uint32List) : Prop where
  le : RU ≤ w.d0 * N
  length : w.d0 * N ≤ r.length
  val_eq : val V.base (V.digs r) N = val digitBase (dig r) RU

/-- What the loop knows of the normalized divisor: `t` is its top digit, and `ny` its negative. -/
structure Divisor {w : Width} (V : View w) (Y m t : Nat) (ny : Uint32List) : Prop where
  pos : 0 < m
  lower : t * V.base ^ (m - 1) ≤ Y
  upper : Y < (t + 1) * V.base ^ (m - 1)
  le : Y ≤ V.base ^ m
  top : V.base ≤ 2 * t
  length : w.d0 * m ≤ ny.length
  neg : val V.base (V.digs ny) m = V.base ^ m - Y

section Step

variable {w : Width} {V : View w} {RU N X Y t j n m W : Nat}

theorem one_lt_base : 1 < V.base := by
  rw [V.base_eq]
  exact Nat.one_lt_pow V.pos.ne' (by decide)

/-- A list whose number has no more than `RU` digits. -/
theorem Clear.of_lt (hRU : RU ≤ w.d0 * N) (hl : w.d0 * N ≤ r.length)
    (hlt : val V.base (V.digs r) N < digitBase ^ RU) : Clear V RU N r := by
  refine ⟨hRU, hl, ?_⟩
  obtain ⟨k, hk⟩ := Nat.exists_eq_add_of_le hRU
  rw [← mod_eq_of_lt hlt, V.val_digs, hk, val_mod_pow (by decide) fun k _ => dig_lt r k]

/-- `_absSub` on the digits of the units. -/
theorem Clear.absSub (h : Clear V RU N r) (hle : n ≤ RU) (ht : n ≤ tmp.length)
    (hv : val digitBase (dig tmp) n = W) (hge : W ≤ val V.base (V.digs r) N) :
    ∃ r', absSub .result RU tmp n r = some r' ∧ r'.length = r.length ∧ Clear V RU N r' ∧
      val V.base (V.digs r') N = val V.base (V.digs r) N - W := by
  obtain ⟨r', hr', hl, hvl, hkp⟩ := absSub_result hle ht (h.le.trans h.length)
    (by rwa [hv, ← h.val_eq])
  have hc : val V.base (V.digs r') N = val digitBase (dig r') RU := by
    obtain ⟨k, hk⟩ := Nat.exists_eq_add_of_le h.le
    have := h.val_eq
    rw [V.val_digs, hk, val_add] at this ⊢
    have hz : val digitBase (fun i => dig r' (RU + i)) k =
        val digitBase (fun i => dig r (RU + i)) k :=
      val_congr fun i _ => hkp _ (by omega)
    rw [hz]
    omega
  exact ⟨r', hr', hl, ⟨h.le, hl ▸ h.length, hc⟩, by rw [hc, hvl, hv, h.val_eq]⟩

theorem digit_eq_digs (hi : i < N) :
    val V.base (V.digs r) N / V.base ^ i % V.base = V.digs r i :=
  val_digit one_lt_base hi fun k _ => V.digs_lt r k

/-- The digits of `i + 1` units end within those of the result. -/
theorem unit_le (h : w.d0 * N ≤ r.length) (hi : i < N) : w.d0 * (i + 1) ≤ r.length :=
  (Nat.mul_le_mul_left _ hi).trans h

/-- **The correction loop terminates**: from a digit that is too large by `n` it returns after `n`
iterations with the quotient digit, and with its multiple subtracted. -/
theorem lowerQuotient_spec {q fuel : Nat} (hp : Partial V.base m X Y (j + 1) W)
    (hY : Y ≤ V.base ^ m) (hRU : w.d0 * (m + j) ≤ RU) (hN : j + m < N) (hc : Clear V RU N r)
    (ha : args.length = 4) (htm : w.d0 * (m + j) ≤ tmp.length)
    (ht : val digitBase (dig tmp) (w.d0 * (m + j)) = (V.base ^ m - Y) * V.base ^ j)
    (hq : V.quo args = q + 1) (hv : val V.base (V.digs r) N = subtract V.base m Y j W q)
    (hle : LongDivision.quotientDigit V.base m Y j W ≤ q) (hf : q < fuel) : ∃ args' r',
      lowerQuotient w tmp (w.d0 * (m + j)) RU (w.d0 * (j + m + 1) - 1) fuel args r =
        some (args', r') ∧ args'.length = 4 ∧ Clear V RU N r' ∧ r'.length = r.length ∧
      V.top args' = V.top args ∧ val V.base (V.digs r') N = subtract V.base m Y j W
        (LongDivision.quotientDigit V.base m Y j W) := by
  induction fuel generalizing q args r with
  | zero => omega
  | succ fuel ih =>
    have hdr := digit_eq_digs (V := V) (r := r) hN
    rw [hv] at hdr
    have hdq : V.digs r (j + m) ≤ q ∧
        (V.digs r (j + m) < q ↔ LongDivision.quotientDigit V.base m Y j W < q) := by
      rcases Nat.lt_or_eq_of_le hle with hlt | heq
      · have := hp.digit_lt hY hlt
        omega
      · rw [← heq, hp.digit_eq hY] at hdr
        omega
    obtain ⟨args1, h1, hln1, htp1, hq1⟩ := V.lower_spec ha (unit_le hc.length hN) hdq.1 hq
    rw [lowerQuotient, h1, some_bind]
    dsimp only
    by_cases hlt : V.digs r (j + m) < q
    · -- Still too large: once more.
      obtain _ | q := q
      · omega
      obtain ⟨r1, hr1, hl1, hc1, hv1⟩ := hc.absSub hRU htm ht (by rw [hv, subtract_succ]; omega)
      rw [hv, subtract_succ, Nat.add_sub_cancel] at hv1
      obtain ⟨args', r', h, hln', hc', hl', htp', hv'⟩ := ih hc1 hln1 hq1 hv1
        (Nat.le_of_lt_succ (hdq.2.1 hlt)) (by omega)
      refine ⟨args', r', ?_, hln', hc', by omega, htp'.trans htp1, hv'⟩
      rw [if_pos (decide_eq_true hlt), hr1]
      exact h
    · refine ⟨args1, r, ?_, hln1, hc, rfl, htp1, ?_⟩
      · rw [if_neg (by simpa using hlt)]
        rfl
      · rw [hv, Nat.le_antisymm hle (Nat.not_lt.1 (hlt ∘ hdq.2.2))]

/-- What holds of the lists before quotient digit `j - 1`. -/
structure Dividing (V : View w) (X Y m t RU N j : Nat) (s : DivState) : Prop where
  part : Partial V.base m X Y j (val V.base (V.digs s.resultDigits) N)
  clear : Clear V RU N s.resultDigits
  room : w.d0 * (j + m) ≤ RU
  args : s.args.length = 4
  top : V.top s.args = t
  tmp : w.d0 * (m + j) + w.d0 * (m + j) % 2 ≤ s.tmpDigits.length

section
variable {s : DivState} (hd : Divisor V Y m t ny) (hs : Dividing V X Y m t RU N (j + 1) s)
include hd hs

/-- The estimate fits and is not too small. -/
theorem Dividing.estimate : ∃ args,
    w.estimateQuotientDigit s.args s.resultDigits (w.d0 * (j + m + 1) - 1) = some args ∧
      args.length = 4 ∧ V.top args = t ∧
      LongDivision.quotientDigit V.base m Y j (val V.base (V.digs s.resultDigits) N) ≤
        V.quo args := by
  obtain ⟨hp, hc, hrm, ha, htp, -⟩ := hs
  have hps := hd.pos
  have hN : j + 1 + m ≤ N := Nat.le_of_mul_le_mul_left (hrm.trans hc.le) V.pos
  obtain ⟨i, hi⟩ : ∃ i, j + m = i + 1 := ⟨j + m - 1, by omega⟩
  obtain ⟨hld2, hld1⟩ := val_leading one_lt_base (V.digs_lt s.resultDigits) (by omega : i + 2 ≤ N)
  rw [show i + 2 = j + 1 + m by omega] at hld1 hld2
  obtain ⟨args, h, hln, htp', he⟩ := V.estimate_spec (i := i)
    (unit_le hc.length (by omega : i + 1 < N)) ha (htp ▸ hd.top)
    (by rw [htp, ← hld1, ← hi]; exact hp.leading_le hps hd.upper)
  rw [show i + 2 = j + m + 1 by omega] at h
  refine ⟨args, h, hln, htp'.trans htp, he _ (quotientDigit_lt hp) ?_⟩
  rw [htp, ← hld2, show i = j + m - 1 by omega, LongDivision.quotientDigit]
  exact quotient_le_estimate (by have := hd.top; have := one_lt_base (V := V); omega) hps hd.lower
    (Nat.zero_lt_of_lt one_lt_base)

/-- The multiple of the divisor is subtracted. -/
theorem Dividing.mulAdd (ha : args.length = 4)
    (hge : LongDivision.quotientDigit V.base m Y j (val V.base (V.digs s.resultDigits) N) ≤
      V.quo args) : ∃ r,
      w.mulAdd args Core.quotientDigit ny 0 s.resultDigits (w.d0 * j) (w.d0 * m) = some r ∧
        r.length = s.resultDigits.length ∧ Clear V RU N r ∧ val V.base (V.digs r) N =
          subtract V.base m Y j (val V.base (V.digs s.resultDigits) N) (V.quo args) := by
  obtain ⟨hp, hc, hrm, -⟩ := hs
  have hN : j + 1 + m ≤ N := Nat.le_of_mul_le_mul_left (hrm.trans hc.le) V.pos
  have hsb : val V.base (V.digs s.resultDigits) N +
      V.quo args * val V.base (V.digs ny) m * V.base ^ j =
        subtract V.base m Y j (val V.base (V.digs s.resultDigits) N) (V.quo args) := by
    rw [hd.neg, subtract]
  have hpw : digitBase ^ RU =
      V.base ^ (j + 1 + m) * digitBase ^ (RU - w.d0 * (j + 1 + m)) := by
    rw [V.base_eq, ← Nat.pow_mul, ← Nat.pow_add, Nat.add_sub_cancel' hrm]
  have hlt := hp.subtract_lt hd.le hge (V.quo_lt args)
    (by rw [← hpw, hc.val_eq]; exact val_dig_lt s.resultDigits RU)
  rw [← hpw] at hlt
  obtain ⟨r, hr, hl, hv⟩ := V.mulAdd_spec ha hd.length hc.length (by omega : j + m ≤ N) (by
    rw [hsb, V.base_eq, ← Nat.pow_mul]
    rw [V.base_eq] at hlt
    exact hlt.trans_le (Nat.pow_le_pow_right (by decide) hc.le))
  rw [hsb] at hv
  exact ⟨r, hr, hl, .of_lt hc.le (hl ▸ hc.length) (by rwa [hv]), hv⟩

theorem divStep_spec :
    ∃ s', divStep w ny (w.d0 * m) RU (w.d0 * j) (w.d0 * (j + m + 1) - 1) s = some s' ∧
      Dividing V X Y m t RU N j s' ∧ s'.resultDigits.length = s.resultDigits.length := by
  obtain ⟨args1, h1, hln1, htp1, hge⟩ := hs.estimate hd
  obtain ⟨r1, hr1, hl1, hc1, hv1⟩ := hs.mulAdd hd hln1 hge
  obtain ⟨args, r, tmp⟩ := s
  obtain ⟨hp, hc, hrm, -, -, htmp⟩ := hs
  dsimp only at *
  have hY := hd.le
  have hN : j + 1 + m ≤ N := Nat.le_of_mul_le_mul_left (hrm.trans hc.le) V.pos
  have hmj : w.d0 * (m + j) = w.d0 * (j + m) := by rw [Nat.add_comm]
  rw [show j + 1 + m = j + m + 1 by omega, Nat.mul_add w.d0 (j + m) 1] at hrm
  rw [show m + (j + 1) = m + j + 1 by omega, Nat.mul_add w.d0 (m + j) 1] at htmp
  have hdr := digit_eq_digs (V := V) (r := r1) (by omega : j + m < N)
  rw [hv1] at hdr
  have hun1 := unit_le hc1.length (by omega : j + m < N)
  have hql := V.quo_lt args1
  generalize hq : V.quo args1 = q at *
  rw [divStep, h1, some_bind, hr1, some_bind]
  rcases Nat.lt_or_eq_of_le hge with hlt | heq
  · have hsm := hp.digit_lt hY hlt
    rw [hdr] at hsm
    obtain _ | q := q
    · omega
    obtain ⟨tmp1, h2, hln2, htm, -⟩ := dlShiftDigits_spec (x := .array ny) (r := tmp)
      (n := w.d0 * j) (Nat.mul_pos V.pos hd.pos) hd.length (by rw [← Nat.mul_add]; omega)
    rw [show Operand.digs (.array ny) tmp = dig ny from rfl, ← V.val_digs, hd.neg, Nat.pow_mul,
      ← V.base_eq, ← Nat.mul_add] at htm
    obtain ⟨r2, hr2, hl2, hc2, hv2⟩ := hc1.absSub (by omega) (by omega) htm
      (by rw [hv1, subtract_succ]; omega)
    rw [hv1, subtract_succ, Nat.add_sub_cancel] at hv2
    obtain ⟨args3, r3, h3, hln3, hc3, hl3, htp3, hv3⟩ := lowerQuotient_spec hp hY (by omega)
      (by omega) hc2 hln1 (by omega) htm hq hv2 (by omega)
      (by rw [← V.base_eq]; omega : q < digitBase ^ w.d0)
    rw [V.isBelow_spec hln1 hun1 (by omega), decide_eq_true (by omega), some_bind, if_pos rfl, h2,
      some_bind, ← Nat.mul_add]
    dsimp only
    rw [hr2, some_bind, h3]
    refine ⟨_, rfl, ⟨?_, hc3, by omega, hln3, htp3.trans htp1, by show _ ≤ tmp1.length; omega⟩,
      by show r3.length = _; omega⟩
    rw [hv3]
    exact hp.step hY
  · rw [← heq, hp.digit_eq hY] at hdr
    rw [V.isBelow_spec hln1 hun1 (by omega), decide_eq_false (by omega), some_bind]
    refine ⟨_, rfl, ⟨?_, hc1, by omega, hln1, htp1, by show _ ≤ tmp.length; omega⟩, hl1⟩
    rw [hv1, ← heq]
    exact hp.step hY

end

theorem divLoop_spec {s : DivState} {fuel : Nat} (hd : Divisor V Y m t ny)
    (hs : Dividing V X Y m t RU N j s) (hf : j ≤ fuel) :
    ∃ s', divLoop w ny (w.d0 * m) RU fuel (w.d0 * j) (w.d0 * (j + m) - 1) s = some s' ∧
      Dividing V X Y m t RU N 0 s' ∧ s'.resultDigits.length = s.resultDigits.length := by
  induction j generalizing s fuel with
  | zero => exact ⟨s, by rw [Nat.mul_zero, divLoop], hs, rfl⟩
  | succ j ih =>
    obtain _ | fuel := fuel
    · omega
    have hpos := V.pos
    obtain ⟨s1, h1, hs1, hln1⟩ := divStep_spec hd hs
    obtain ⟨s2, h2, hs2, hln2⟩ := ih hs1 (Nat.le_of_succ_le_succ hf)
    refine ⟨s2, ?_, hs2, hln2.trans hln1⟩
    obtain ⟨k, hk⟩ : ∃ k, w.d0 * (j + 1) = k + 1 := ⟨w.d0 * (j + 1) - 1, by rw [Nat.mul_add]; omega⟩
    have hj : k + 1 - w.d0 = w.d0 * j := by rw [← hk, Nat.mul_add]; omega
    have hi : w.d0 * (j + 1 + m) - 1 - w.d0 = w.d0 * (j + m) - 1 := by
      rw [show j + 1 + m = j + m + 1 by omega, Nat.mul_add]
      omega
    rw [hk, divLoop, if_neg (by rw [← hk, Nat.mul_add]; omega)]
    dsimp only
    rw [hj, hi, show j + 1 + m = j + m + 1 by omega, h1]
    exact h2

end Step

/-! ## The whole division -/

variable {yUsed used : Nat} {X : Nat}

/-- What the first step and the normalization hand to the loop. -/
structure Started (y ny args r tmp : Uint32List) (yUsed used X j : Nat) : Prop where
  top : 2 ^ 31 ≤ dig y (yUsed - 1)
  length : yUsed ≤ ny.length
  neg : val digitBase (dig ny) yUsed = digitBase ^ yUsed - val digitBase (dig y) yUsed
  used_eq : used + used % 2 = j + yUsed
  tmp : used + used % 2 ≤ tmp.length
  args : args.length = 4
  part : Partial digitBase yUsed X (val digitBase (dig y) yUsed) j
    (val digitBase (dig r) (used + 1))

/-- The loop divides, in the digits of any view. -/
theorem Started.divides {w : Width} (V : View w) {h k N j : Nat} (hu : yUsed = w.d0 * (h + 1))
    (hj : j = w.d0 * k) (hs : Started y ny args r tmp yUsed used X j)
    (ht : V.base ≤ 2 * V.digs y h) (hta : V.top args = V.digs y h) (hc : Clear V (used + 1) N r) :
    ∃ s, divLoop w ny yUsed (used + 1) j j (j + yUsed - 1) ⟨args, r, tmp⟩ = some s ∧
      s.resultDigits.length = r.length ∧ Partial digitBase yUsed X (val digitBase (dig y) yUsed) 0
        (val digitBase (dig s.resultDigits) (used + 1)) := by
  subst hu hj
  obtain ⟨-, hl, hneg, hused, htm, ha, hp⟩ := hs
  have hv := val_succ V.base (V.digs y) h
  have hlt := val_lt one_lt_base fun k (_ : k < h) => V.digs_lt y k
  have hle := val_lt one_lt_base fun k (_ : k < h + 1) => V.digs_lt y k
  rw [V.val_digs] at hv hle
  have hd : Divisor V (val digitBase (dig y) (w.d0 * (h + 1))) (h + 1) (V.digs y h) ny := by
    refine ⟨h.succ_pos, ?_, ?_, hle.le, ht, hl, ?_⟩
    · rw [Nat.add_sub_cancel]
      omega
    · rw [Nat.add_sub_cancel, Nat.add_mul, Nat.one_mul]
      omega
    · rw [V.val_digs, hneg, V.base_eq, ← Nat.pow_mul]
  rw [← Nat.mul_add] at hused ⊢
  have hkh : w.d0 * (h + 1 + k) = w.d0 * (k + (h + 1)) := by rw [Nat.add_comm]
  obtain ⟨s, hrun, hs, hlen⟩ := divLoop_spec (s := ⟨args, r, tmp⟩) (X := X) (j := k)
    hd ⟨by rw [hc.val_eq, V.base_eq]; exact partial_pow.2 hp, hc, by omega, ha, hta,
      by show _ ≤ tmp.length; omega⟩ (Nat.le_mul_of_pos_left k V.pos)
  refine ⟨s, hrun, hlen, ?_⟩
  have hpt := hs.part
  rw [hs.clear.val_eq, V.base_eq] at hpt
  exact partial_pow.1 hpt

/-- **The loop divides**, in steps of one digit and in steps of two. -/
theorem Started.divides_pairs (pairs : Bool) {j : Nat}
    (hs : Started y ny args r tmp yUsed used X j) (he : yUsed % 2 = 0) (hps : 0 < yUsed)
    (hr : used + 1 + (used + 1) % 2 ≤ r.length)
    (htp : dig args divisorTopDigit = dig y (yUsed - 1))
    (hlw : dig args divisorLowTopDigit = dig y (yUsed - 2))
    (hz : (used + 1) % 2 = 1 → dig r (used + 1) = 0) :
    ∃ s, divLoop (if pairs then digitPair else oneDigit) ny yUsed (used + 1) j j (j + yUsed - 1)
        ⟨args, r, tmp⟩ = some s ∧ s.resultDigits.length = r.length ∧
      Partial digitBase yUsed X (val digitBase (dig y) yUsed) 0
        (val digitBase (dig s.resultDigits) (used + 1)) := by
  have htop := hs.top
  have hused := hs.used_eq
  cases pairs with
  | false =>
    obtain ⟨h, rfl⟩ : ∃ h, yUsed = h + 1 := ⟨yUsed - 1, by omega⟩
    refine hs.divides oneDigitView (Nat.one_mul _).symm (Nat.one_mul _).symm (N := used + 1) ?_ htp
      ⟨(Nat.one_mul _).ge, (by omega : 1 * (used + 1) ≤ r.length), rfl⟩
    show digitBase ≤ 2 * dig y h
    rw [digitBase_eq]
    rw [Nat.add_sub_cancel] at htop
    omega
  | true =>
    obtain ⟨h, rfl⟩ : ∃ h, yUsed = 2 * (h + 1) := ⟨yUsed / 2 - 1, by omega⟩
    rw [show 2 * (h + 1) - 1 = 2 * h + 1 by omega] at htop htp
    rw [show 2 * (h + 1) - 2 = 2 * h by omega] at hlw
    obtain ⟨N, hN, hl⟩ : ∃ N, used + 1 + (used + 1) % 2 = 2 * N ∧ 2 * N ≤ r.length :=
      ⟨(used + 2) / 2, by omega⟩
    refine hs.divides digitPairView (k := j / 2) rfl (by omega : j = 2 * (j / 2)) ?_ ?_
      ⟨(by omega : used + 1 ≤ 2 * N), hl, ?_⟩
    · show digitBase ^ 2 ≤ 2 * (dig y (2 * h) + dig y (2 * h + 1) * digitBase)
      rw [digitBase_eq]
      omega
    · show dig args divisorLowTopDigit + dig args divisorTopDigit * digitBase = _
      rw [htp, hlw]
      rfl
    · rw [digitPairView.val_digs]
      refine val_extend (by omega : used + 1 ≤ 2 * N) fun k hk (hk' : k < 2 * N) => ?_
      rw [show k = used + 1 by omega]
      exact hz (by omega)

/-- **Quotient and remainder**: at the end the remainder is in the lower digits of the result, and
the quotient above them. -/
theorem quoRem_of_partial {Y n : Nat} (h : Partial digitBase yUsed X Y 0 (val digitBase (dig r) n))
    (hle : yUsed ≤ n) : val digitBase (dig r) yUsed = X % Y ∧
      val digitBase (fun k => dig r (yUsed + k)) (n - yUsed) = X / Y := by
  obtain ⟨k, rfl⟩ := Nat.exists_eq_add_of_le hle
  obtain ⟨hlt, ht⟩ := h
  rw [Nat.zero_add, Nat.pow_zero, Nat.mul_one, val_mod_pow (by decide) fun k _ => dig_lt _ k]
    at hlt ht
  rw [val_div_pow (by decide) fun k _ => dig_lt _ k] at ht
  rw [Nat.add_sub_cancel_left, ← ht]
  constructor
  · rw [add_mul_mod_self_left, mod_eq_of_lt hlt]
  · rw [add_mul_div_left _ _ (zero_lt_of_lt hlt), div_eq_of_lt hlt, Nat.zero_add]

end Core.Proof
