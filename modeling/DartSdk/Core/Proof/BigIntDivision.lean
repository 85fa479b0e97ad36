import DartSdk.Core.Proof.BigIntBitwise
import DartSdk.Core.Proof.DivisionLoop

/-!
# `~/`, `remainder` and `%` of `_BigIntImpl`, over any history

The cache of the last division is keyed on the identity of the digit lists and the numbers of used
digits. It is consistent (`Consistent`) when it holds the quotient and the remainder of the numbers
that its lists denote. Lists are never written once they have an identity, so a hit is for the same
numbers, and every operation keeps the cache consistent.

* `divRem_spec`: quotient and remainder, from the cache or computed.
* `History.keeps`: what any sequence of divisions and new numbers keeps.
* `division_spec`: **the operators are right after every history**, with and without the intrinsics
  for pairs of digits.
-/

namespace Core.Proof

open Core BigIntImpl Digits Total List Nat Bool Int

/-! ## The cache -/

/-- The fields of the result hold the quotient and the remainder of `X` and `Y`. -/
structure QuoRem (c : DivRemCache) (X Y : Nat) : Prop where
  rem_le : c.remUsed ≤ c.quoRemUsed
  used_le : c.quoRemUsed ≤ c.quoRemDigits.length
  rem : val digitBase (dig c.quoRemDigits) c.remUsed = X % Y * 2 ^ c.remNsh
  quo : val digitBase (fun k => dig c.quoRemDigits (c.remUsed + k)) (c.quoRemUsed - c.remUsed) =
    X / Y

/-- The result belongs to the lists it is cached for. -/
def Correct (heap : List Uint32List) (c : DivRemCache) : Prop :=
  ∃ dx dy, heap[c.dividendDigits]? = some dx ∧ heap[c.divisorDigits]? = some dy ∧
    QuoRem c (val digitBase (dig dx) c.dividendUsed) (val digitBase (dig dy) c.divisorUsed)

def Consistent (s : Statics) : Prop := ∀ c, s.lastDivRem = some c → Correct s.heap c

/-- As `Computes`, for a single division, which may change the cache. -/
def DividesOnce (m : BigIntM BigIntImpl) (s : Statics) (x : Int) : Prop :=
  Returns m s fun a s' => s.heap <+: s'.heap ∧ Consistent s' ∧ Represents s' a x

variable {s s' : Statics} {a b : BigIntImpl} {x y : Int} {ds : Uint32List}
  {m : BigIntM BigIntImpl} {pairs : Bool}

theorem getElem?_of_prefix {heap heap' : List Uint32List} {ref : Ref} (h : heap <+: heap')
    (hd : heap[ref]? = some ds) : heap'[ref]? = some ds := by
  obtain ⟨t, rfl⟩ := h
  rw [getElem?_append_left (List.getElem?_eq_some_iff.1 hd).1]
  exact hd

theorem Correct.mono {heap heap' : List Uint32List} {c : DivRemCache} (h : Correct heap c)
    (hs : heap <+: heap') : Correct heap' c := by
  obtain ⟨dx, dy, hx, hy, hq⟩ := h
  exact ⟨dx, dy, getElem?_of_prefix hs hx, getElem?_of_prefix hs hy, hq⟩

theorem Consistent.grows (h : Consistent s) (hs : Grows s s') : Consistent s' :=
  fun c hc => (h c (hs.lastDivRem ▸ hc)).mono hs.heap

theorem Computes.dividesOnce (h : Computes m s x) (hs : Consistent s) : DividesOnce m s x :=
  Returns.mono h fun _ _ ⟨hg, ha⟩ => ⟨hg.heap, hs.grows hg, ha⟩

/-! ## Quotient and remainder -/

theorem computeDivRem_spec (ha : Represents s a x) (hb : Represents s b y) (hy0 : y ≠ 0)
    (hle : b.used ≤ a.used) :
    Returns (a.computeDivRem pairs b) s fun c s' => s' = s ∧ a.isCached b c = true ∧
      QuoRem c x.natAbs y.natAbs := by
  obtain ⟨dx, hx⟩ := ha
  obtain ⟨dy, hy⟩ := hb
  have hdx := hx.used_le
  have hdy := hy.used_le
  have hp : 0 < b.used := Nat.pos_of_ne_zero fun h => hy0 (hy.used_eq_zero.1 h)
  have htp := hy.top hp
  obtain ⟨-, hl, -⟩ := normalizationShift_spec hp htp
  obtain ⟨yd, r, rUsed, hn, hyl, hyv, hrl, hrs, hrv⟩ := normalizeOperands_spec hdx hdy hle hp htp
  rw [← hyv] at hl
  have ht := top_of_le (by omega) hl
  have hY : 0 < val digitBase (dig yd) (b.used + b.used % 2) :=
    (Nat.mul_pos (by decide) (Nat.pow_pos (by decide))).trans_le hl
  obtain ⟨args, har, hlen4, hag, hlow⟩ := initDivArgs_spec (by omega) hyl
  obtain ⟨ny, hny, hln, hnv⟩ := negateDigits_spec hyl hY
  have htm : rUsed + rUsed % 2 ≤ (newDigits (rUsed + rUsed % 2)).length := le_newDigits (by omega)
  obtain ⟨r1, tmp1, hf, hl1, ht1, hpt, hz⟩ := firstDivStep_spec (by omega) hyl ht (by omega) hrl htm
  have hj := (Nat.sub_add_cancel (by omega : b.used + b.used % 2 ≤ rUsed + rUsed % 2)).symm
  obtain ⟨st, hlp, hls, hst⟩ := Started.divides_pairs pairs
    ⟨ht, hln, hnv, hj, ht1 ▸ htm, hlen4, hpt⟩ (by omega) (by omega) (hl1 ▸ hrl) hag hlow hz
  rw [← hj] at hlp
  obtain ⟨hrm, hq⟩ := quoRem_of_partial hst (by omega)
  have hYb := hy.natAbs
  have hX := hx.natAbs
  rw [hyv, hrv, ← hYb, ← hX] at hrm hq
  refine hx.read (.bind (returns_digitsAt hy.heap (.run (load_eq (by omega)) (.run hn ?_))))
  dsimp only
  rw [and_one_is_mod]
  refine .run har (.run hf (.run hny (.run hlp (.pure ⟨rfl, ?_, ?_⟩))))
  · simp [isCached]
  refine ⟨by show b.used + b.used % 2 ≤ rUsed + 1; omega,
    by show rUsed + 1 ≤ st.resultDigits.length; omega, ?_, ?_⟩
  · show val digitBase (dig st.resultDigits) (b.used + b.used % 2) = _
    rw [hrm, mul_mod_mul_right]
  · show val digitBase (fun k => dig st.resultDigits (b.used + b.used % 2 + k))
      (rUsed + 1 - (b.used + b.used % 2)) = _
    rw [hq, Nat.mul_div_mul_right _ _ (Nat.pow_pos (by decide))]

theorem divRem_spec (hs : Consistent s) (ha : Represents s a x) (hb : Represents s b y)
    (hy0 : y ≠ 0) (hle : b.used ≤ a.used) :
    Returns (a.divRem pairs b) s fun c s' => s'.heap = s.heap ∧ Consistent s' ∧
      QuoRem c x.natAbs y.natAbs := by
  have hu : Returns (divRem.update pairs a b) s fun c s' => s'.heap = s.heap ∧ Consistent s' ∧
      QuoRem c x.natAbs y.natAbs := by
    refine (computeDivRem_spec ha hb hy0 hle).then fun c s1 ⟨hs1, hch, hq⟩ => ?_
    subst hs1
    refine ⟨c, { s1 with lastDivRem := some c }, rfl, rfl, fun c' hc' => ?_, hq⟩
    cases hc'
    obtain ⟨dx, hx⟩ := ha
    obtain ⟨dy, hy⟩ := hb
    simp only [isCached, and_eq_true, beq_iff_eq] at hch
    obtain ⟨⟨⟨h1, h2⟩, h3⟩, h4⟩ := hch
    refine ⟨dx, dy, h3 ▸ hx.heap, h4 ▸ hy.heap, ?_⟩
    rw [← h1, ← h2, ← hx.natAbs, ← hy.natAbs]
    exact hq
  rw [divRem]
  refine .bind ⟨s, s, rfl, ?_⟩
  cases hc : s.lastDivRem with
  | none =>
    rw [hc]
    exact hu
  | some c =>
    rw [hc]
    by_cases hh : a.isCached b c = true
    · -- The cached lists are the lists of these numbers.
      dsimp only
      rw [if_pos hh]
      refine .pure ⟨rfl, hs, ?_⟩
      obtain ⟨dx, hx⟩ := ha
      obtain ⟨dy, hy⟩ := hb
      obtain ⟨dx', dy', hx', hy', hq⟩ := hs c hc
      simp only [isCached, and_eq_true, beq_iff_eq] at hh
      obtain ⟨⟨⟨h1, h2⟩, h3⟩, h4⟩ := hh
      rw [← h3, hx.heap] at hx'
      rw [← h4, hy.heap] at hy'
      cases hx'
      cases hy'
      rwa [← h1, ← h2, ← hx.natAbs, ← hy.natAbs] at hq
    · dsimp only
      rw [if_neg hh]
      exact hu

/-! ## `_div` and `_rem` -/

theorem tdiv_eq (x y : Int) :
    x.tdiv y = signed (decide (x < 0) != decide (y < 0)) (x.natAbs / y.natAbs) := by
  cases x with
  | ofNat m =>
    cases y with
    | ofNat n =>
      have hm : ¬ (m : Int) < 0 := Int.not_lt.2 (natCast_nonneg m)
      have hn : ¬ (n : Int) < 0 := Int.not_lt.2 (natCast_nonneg n)
      simp [signed, Int.tdiv, hm, hn]
    | negSucc n => simp [signed, Int.tdiv]
  | negSucc m =>
    cases y with
    | ofNat n | negSucc n => simp [signed, Int.tdiv]

theorem tmod_eq (x y : Int) : x.tmod y = signed (decide (x < 0)) (x.natAbs % y.natAbs) := by
  cases x with
  | ofNat m | negSucc m =>
    cases y with
    | ofNat n | negSucc n => simp [signed, Int.tmod]

theorem natAbs_lt_of_used_lt (ha : Represents s a x) (hb : Represents s b y)
    (h : a.used < b.used) : x.natAbs < y.natAbs := by
  by_contra hle
  have := used_le_of_natAbs_le ha hb (by omega)
  omega

/-- The end of `_div` and `_rem`: the sign of a magnitude that was computed. -/
theorem applySign_spec {n : Nat} (ha : Represents s a n) (neg : Bool) :
    Computes (if neg && decide (a.used > 0) then a.neg else pure a) s (signed neg n) := by
  obtain ⟨ds, h⟩ := ha
  cases neg with
  | false => exact .of_represents ⟨ds, h⟩
  | true =>
    by_cases h0 : a.used = 0
    · have hn : n = 0 := natCast_eq_zero.1 (h.used_eq_zero.1 h0)
      subst hn
      simp only [h0, gt_iff_lt, lt_irrefl, decide_false, Bool.and_false, false_eq_true, if_false]
      exact .of_represents ⟨ds, h⟩
    · simp only [Nat.pos_of_ne_zero h0, decide_true, Bool.and_self, if_true]
      exact neg_spec ⟨ds, h⟩

/-- A part of the digits of the cached result becomes a number. -/
theorem cloneNew_spec {st stop : Nat} (hle : st ≤ stop) (hst : stop ≤ ds.length) :
    ∃ r, cloneDigits ds st stop (stop - st) = some r ∧
      ∀ s, Computes (createNew false (stop - st) r) s
        (val digitBase (fun k => dig ds (st + k)) (stop - st) : Nat) := by
  obtain ⟨r, hr, hl, hd⟩ := cloneDigits_spec hle hst (le_refl (stop - st))
  refine ⟨r, hr, fun s => ?_⟩
  refine createNew_spec (by omega) (by omega) (fun _ => by rw [hd, if_neg (by omega)]) ?_
  rw [val_congr fun k hk => by rw [hd, if_pos hk]]
  rfl

/-- The numbers made after a division that was correct. -/
theorem Computes.dividesOnce_of_heap_eq (h : Computes m s' x) (hs : s'.heap = s.heap)
    (hs' : Consistent s') :
    Returns m s' fun a s'' => s.heap <+: s''.heap ∧ Consistent s'' ∧ Represents s'' a x :=
  (h.dividesOnce hs').mono fun _ _ hd => hs ▸ hd

section
variable (hs : Consistent s) (ha : Represents s a x) (hb : Represents s b y) (hy0 : y ≠ 0)
include hs ha hb hy0

theorem div_spec : DividesOnce (a.div pairs b) s (x.tdiv y) := by
  obtain ⟨⟨dx, hx⟩, dy, hy⟩ := And.intro ha hb
  rw [div]
  by_cases hlt : a.used < b.used
  · rw [if_pos hlt, tdiv_eq, div_eq_of_lt (natAbs_lt_of_used_lt ha hb hlt), show
      signed (decide (x < 0) != decide (y < 0)) 0 = 0 by simp [signed]]
    exact (Computes.of_represents (zero_represents s)).dividesOnce hs
  rw [if_neg hlt, tdiv_eq, ← hx.isNegative, ← hy.isNegative]
  refine (divRem_spec hs ha hb hy0 (by omega)).then ?_
  rintro c s1 ⟨hh, hs1, hq⟩
  obtain ⟨r, hr, hn⟩ := cloneNew_spec hq.rem_le hq.used_le
  rw [hq.quo] at hn
  refine .run hr (Computes.dividesOnce_of_heap_eq ?_ hh hs1)
  exact (hn s1).then fun quo s2 _ hqu => applySign_spec hqu _

theorem rem_spec : DividesOnce (a.rem pairs b) s (x.tmod y) := by
  obtain ⟨dx, hx⟩ := ha
  have ha : Represents s a x := ⟨dx, hx⟩
  rw [rem]
  by_cases hlt : a.used < b.used
  · rw [if_pos hlt, tmod_eq, mod_eq_of_lt (natAbs_lt_of_used_lt ha hb hlt), ← hx.isNegative,
      hx.signed_isNegative]
    exact (Computes.of_represents ha).dividesOnce hs
  rw [if_neg hlt, tmod_eq, ← hx.isNegative]
  refine (divRem_spec hs ha hb hy0 (by omega)).then fun c s1 ⟨hh, hs1, hq⟩ => ?_
  obtain ⟨r, hr, hnw⟩ := cloneNew_spec (Nat.zero_le c.remUsed) (hq.rem_le.trans hq.used_le)
  simp only [Nat.zero_add, Nat.sub_zero, hq.rem] at hr hnw
  refine .run hr (Computes.dividesOnce_of_heap_eq ?_ hh hs1)
  refine (hnw s1).then fun rem s2 _ hrm => ?_
  by_cases hn : c.remNsh > 0
  · have hsh := shiftRight_spec hrm c.remNsh
    rw [← natCast_ediv, Nat.mul_div_cancel _ (Nat.pow_pos (by decide))] at hsh
    simp only [hn, if_true]
    exact hsh.then fun rem s3 _ hrm => applySign_spec hrm _
  · rw [Nat.eq_zero_of_not_pos hn, Nat.pow_zero, Nat.mul_one] at hrm
    simp only [hn, if_false]
    exact applySign_spec hrm _

end

/-! ## Histories -/

/-- What happens to the static state: lists are published, or a division is cached. -/
inductive Step (pairs : Bool) : Statics → Statics → Prop
  | grow {s s' : Statics} (h : Grows s s') : Step pairs s s'
  | div {s s' : Statics} {a b q : BigIntImpl} {x y : Int} (ha : Represents s a x)
      (hb : Represents s b y) (hy0 : y ≠ 0) (h : a.div pairs b s = some (q, s')) : Step pairs s s'
  | rem {s s' : Statics} {a b r : BigIntImpl} {x y : Int} (ha : Represents s a x)
      (hb : Represents s b y) (hy0 : y ≠ 0) (h : a.rem pairs b s = some (r, s')) : Step pairs s s'

def History (pairs : Bool) : Statics → Statics → Prop := Relation.ReflTransGen (Step pairs)

/-- The states after any history on a platform with or without the intrinsics. -/
def Reachable (pairs : Bool) (s : Statics) : Prop :=
  History pairs ⟨staticDigits, none, prefix_rfl⟩ s

theorem DividesOnce.of_eq (hd : DividesOnce m s x) (h : m s = some (a, s')) :
    s.heap <+: s'.heap ∧ Consistent s' := by
  obtain ⟨a', s'', hm, hhp, hs'', -⟩ := hd
  rw [h] at hm
  cases hm
  exact ⟨hhp, hs''⟩

theorem Step.keeps (h : Step pairs s s') (hs : Consistent s) :
    s.heap <+: s'.heap ∧ Consistent s' := by
  cases h with
  | grow hg => exact ⟨hg.heap, hs.grows hg⟩
  | div ha hb hy0 h => exact (div_spec hs ha hb hy0).of_eq h
  | rem ha hb hy0 h => exact (rem_spec hs ha hb hy0).of_eq h

theorem History.keeps (h : History pairs s s') (hs : Consistent s) :
    s.heap <+: s'.heap ∧ Consistent s' := by
  induction h with
  | refl => exact ⟨prefix_rfl, hs⟩
  | tail _ hst ih =>
    obtain ⟨hhp, hs'⟩ := hst.keeps ih.2
    exact ⟨ih.1.trans hhp, hs'⟩

theorem Reachable.consistent (h : Reachable pairs s) : Consistent s :=
  (History.keeps h fun c hc => absurd hc (by simp)).2

theorem Represents.after (ha : Represents s a x) (h : History pairs s s') (hs : Consistent s) :
    Represents s' a x := by
  obtain ⟨ds, hd⟩ := ha
  exact ⟨ds, hd.mono (h.keeps hs).1⟩

/-- As `Computes`, for operators that divide. -/
def Divides (pairs : Bool) (m : BigIntM BigIntImpl) (s : Statics) (x : Int) : Prop :=
  Returns m s fun a s' => History pairs s s' ∧ Represents s' a x

theorem Computes.divides (h : Computes m s x) : Divides pairs m s x :=
  Returns.mono h fun _ _ ⟨hg, ha⟩ => ⟨.single (.grow hg), ha⟩

theorem Divides.then {f : BigIntImpl → BigIntM BigIntImpl} (h : Divides pairs m s x)
    (hf : ∀ a s', History pairs s s' → Represents s' a x → Divides pairs (f a) s' y) :
    Divides pairs (m >>= f) s y :=
  Returns.then h fun a s' ⟨hs', ha⟩ =>
    (hf a s' hs' ha).mono fun _ _ ⟨hs'', hb⟩ => ⟨hs'.trans hs'', hb⟩

theorem DividesOnce.divides (hd : DividesOnce m s x)
    (hm : ∀ a s', m s = some (a, s') → Step pairs s s') :
    Divides pairs m s x := by
  obtain ⟨a, s', h, -, -, ha⟩ := hd
  exact ⟨a, s', h, .single (hm a s' h), ha⟩

/-! ## The operators -/

theorem Holds.used_ne_zero (h : Holds s b ds y) (hy0 : y ≠ 0) : b.used ≠ 0 :=
  fun h0 => hy0 (h.used_eq_zero.1 h0)

section
variable (hs : Consistent s) (ha : Represents s a x) (hb : Represents s b y) (hy0 : y ≠ 0)
include hs ha hb hy0

theorem div_divides : Divides pairs (a.div pairs b) s (x.tdiv y) :=
  (div_spec hs ha hb hy0).divides fun _ _ => .div ha hb hy0

theorem rem_divides : Divides pairs (a.rem pairs b) s (x.tmod y) :=
  (rem_spec hs ha hb hy0).divides fun _ _ => .rem ha hb hy0

theorem truncDiv_spec : Divides pairs (a.truncDiv pairs b) s (x.tdiv y) := by
  obtain ⟨dy, hy⟩ := hb
  rw [truncDiv, if_neg (hy.used_ne_zero hy0)]
  exact div_divides hs ha ⟨dy, hy⟩ hy0

theorem remainder_spec : Divides pairs (a.remainder pairs b) s (x.tmod y) := by
  obtain ⟨dy, hy⟩ := hb
  rw [remainder, if_neg (hy.used_ne_zero hy0)]
  exact rem_divides hs ha ⟨dy, hy⟩ hy0

end

theorem emod_eq_of_tmod_neg (h : x.tmod y < 0) : x % y = x.tmod y + y.natAbs := by
  have hx : ¬ 0 ≤ x := fun hx => by
    have := tmod_nonneg y hx
    omega
  have hd : ¬ y ∣ x := fun hd => by
    rw [tmod_eq_zero_of_dvd hd] at h
    omega
  rw [emod_eq_tmod, if_neg (not_or.2 ⟨hx, hd⟩)]

theorem emod_eq_of_tmod_nonneg (h : 0 ≤ x.tmod y) : x % y = x.tmod y := by
  have hor : 0 ≤ x ∨ y ∣ x := by
    by_cases hx : 0 ≤ x
    · exact .inl hx
    · have hle := tmod_nonneg y (by omega : 0 ≤ -x)
      rw [neg_tmod] at hle
      exact .inr (dvd_of_tmod_eq_zero (by omega))
  rw [emod_eq_tmod, if_pos hor]
  simp

theorem mod_spec (hs : Consistent s) (ha : Represents s a x) (hb : Represents s b y)
    (hy0 : y ≠ 0) : Divides pairs (a.mod pairs b) s (x % y) := by
  obtain ⟨dy, hy⟩ := hb
  rw [mod, if_neg (hy.used_ne_zero hy0)]
  refine (rem_divides hs ha ⟨dy, hy⟩ hy0).then fun result s1 hs1 ⟨ds, hr⟩ => ?_
  have hb1 : Represents s1 b y := Represents.after ⟨dy, hy⟩ hs1 hs
  refine Computes.divides ?_
  rw [hr.isNegative, hy.isNegative]
  by_cases hn : x.tmod y < 0
  · rw [emod_eq_of_tmod_neg hn]
    simp only [hn, decide_true, if_true]
    by_cases hyn : y < 0
    · simp only [hyn, decide_true, if_true]
      have := sub_spec ⟨ds, hr⟩ hb1
      rwa [show x.tmod y - y = x.tmod y + y.natAbs by omega] at this
    · simp only [hyn, decide_false, false_eq_true, if_false]
      have := add_spec ⟨ds, hr⟩ hb1
      rwa [show x.tmod y + y = x.tmod y + y.natAbs by omega] at this
  · rw [emod_eq_of_tmod_nonneg (by omega)]
    simp only [hn, decide_false, false_eq_true, if_false]
    exact .of_represents ⟨ds, hr⟩

/-- An operator that divides ends in a state of a history. -/
theorem Divides.reachable (h : Divides pairs m s x) (hs : Reachable pairs s) :
    Returns m s fun a s' => s.heap <+: s'.heap ∧ Reachable pairs s' ∧ Represents s' a x :=
  h.mono fun _ _ ⟨hs', ha⟩ => ⟨(hs'.keeps hs.consistent).1, hs.trans hs', ha⟩

/-- The quotient is truncated, the remainder has the sign of the dividend and the modulus is the
Euclidean one. -/
structure Division (x y q r m : Int) : Prop where
  eq : x = q * y + r
  rem_lt : |r| < |y|
  rem_sign : r ≠ 0 → r.sign = x.sign
  mod_nonneg : 0 ≤ m
  mod_lt : m < |y|
  mod_congr : y ∣ x - m

theorem division_tdiv_tmod_emod (hy0 : y ≠ 0) :
    Division x y (x.tdiv y) (x.tmod y) (x % y) where
  eq := (tdiv_mul_add_tmod x y).symm
  rem_lt := by
    rw [abs_eq_natAbs, abs_eq_natAbs, natAbs_tmod]
    exact_mod_cast mod_lt _ (natAbs_pos.2 hy0)
  rem_sign h := by
    rw [sign_tmod, if_neg fun hd => h (tmod_eq_zero_of_dvd hd)]
  mod_nonneg := emod_nonneg x hy0
  mod_lt := emod_lt_abs x hy0
  mod_congr := dvd_self_sub_emod

/-- **Division is right after every history**: whatever the cache holds, the operators return, keep
every other number and give numbers that satisfy the representation invariant. -/
theorem division_spec (hs : Reachable pairs s) (ha : Represents s a x) (hb : Represents s b y)
    (hy0 : y ≠ 0) :
    ∃ q r m, Division x y q r m ∧
      (Returns (a.truncDiv pairs b) s fun c s' =>
        s.heap <+: s'.heap ∧ Reachable pairs s' ∧ Represents s' c q) ∧
      (Returns (a.remainder pairs b) s fun c s' => s.heap <+: s'.heap ∧ Reachable pairs s' ∧
        Represents s' c r) ∧
      Returns (a.mod pairs b) s fun c s' =>
        s.heap <+: s'.heap ∧ Reachable pairs s' ∧ Represents s' c m :=
  ⟨x.tdiv y, x.tmod y, x % y, division_tdiv_tmod_emod hy0,
    (truncDiv_spec hs.consistent ha hb hy0).reachable hs,
    (remainder_spec hs.consistent ha hb hy0).reachable hs,
    (mod_spec hs.consistent ha hb hy0).reachable hs⟩

theorem division_ofMixedSigns :
    ∃ q r m, Division 4294967303 (-5) q r m ∧
      Returns (twoDigits.remainder true minusFive) mixedHeap fun c s' => Reachable true s' ∧
        Represents s' c r := by
  have hs : Reachable true mixedHeap := .single (.grow ⟨prefix_append .., rfl⟩)
  obtain ⟨q, r, m, hd, -, hr, -⟩ :=
    division_spec hs twoDigits_represents minusFive_represents (by decide)
  exact ⟨q, r, m, hd, hr.mono fun _ _ ⟨_, h⟩ => h⟩

end Core.Proof
