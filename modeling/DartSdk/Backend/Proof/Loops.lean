import DartSdk.Backend.Loops
import DartSdk.Lib.WrapAround

/-!
# Bounds checks in loops

An `Execution` reaches a position inside a loop nest in some iteration of every loop: definitions
have the values their induction records say, and a recorded bound holds if its branch dominates
the position; the one at the end of a loop's header has also held in every earlier iteration.

* `invariantBounds_trusted`, `inductionBounds_sound`: the bounds that `CanComputeBounds` computes
  hold, provided that nothing they rely on wraps around (`NoWrapAround`).
* `isInRange_sound`: under that condition an index found to be in range is in range.
* `isInRange_wrapAround`: without it, it may not be. `SafelyAdjust` trusts that a comparison keeps
  the lower bound below the upper one, but it is on the control variable, and an induction at a
  constant distance from that may lie on the other side of a wrap-around.
* `induction_arithmetic`: `Add`, `Sub` and `Mul` compute the record of the sum, difference and
  product.
* `recorded_strict`, `classifyControl_strict`: the bounds that `ClassifyControl` records hold when
  the branch stays in the loop.
-/

namespace Backend

open List Option InductionVar

/-! ## Executions -/

/-- The value of an invariant. -/
def Invariant.eval (v : DefId → Int64) (x : Invariant) : Int64 :=
  x.offset + x.mult * (x.defn.elim 0 v)

/-- The value of an induction in iteration `k` of its loop. -/
def InductionVar.eval (v : DefId → Int64) : InductionVar → Nat → Int64
  | invariant x, _ => x.eval v
  | linear _ initial next, k => initial.eval v + next.eval v * Int64.ofNat k
  | wrapAround initial _, 0 => initial.eval v
  | wrapAround _ next, k + 1 => next.eval v k
  | periodic initial next, k => if k % 2 = 0 then initial.eval v else next.eval v

/-- The meaning of a bound on an induction of the given stride. -/
def StrictBound (stride x limit : Int64) : Prop :=
  (stride = 1 → x < limit) ∧ (stride = -1 → limit < x)

/-- The loops `nest`, from the inside out, when control reaches `pos`. -/
structure Execution (g : Dominance) (nest : List LoopInfo) (pos : InstrId) where
  value : DefId → Int64
  iteration : Nat → Nat
  length_nonneg : ∀ {d}, g.isArrayLength d = true → 0 ≤ value d
  induction : ∀ {loop d x}, loop ∈ nest → loop.induction d = some x →
    value d = x.eval value (iteration loop.id)
  bound : ∀ {loop d ptr initial next b}, loop ∈ nest →
    loop.induction d = some (.linear ptr initial next) → b ∈ loop.bounds ptr →
    g.isDominatedBy pos b.branch = true →
    StrictBound (next.eval value)
      ((InductionVar.linear ptr initial next).eval value (iteration loop.id)) (b.limit.eval value)
  header_bound : ∀ {loop d ptr initial next b}, loop ∈ nest →
    loop.induction d = some (.linear ptr initial next) → b ∈ loop.bounds ptr →
    b.branch = loop.header → ∀ {k}, k < iteration loop.id →
    StrictBound (next.eval value) ((InductionVar.linear ptr initial next).eval value k)
      (b.limit.eval value)

namespace Execution

variable {g : Dominance} {nest : List LoopInfo} {pos : InstrId}

/-- The position, or an instruction the execution passed on the way to it. -/
def Reached (_ : Execution g nest pos) (q : InstrId) : Prop :=
  q = pos ∨ g.isDominatedBy pos q = true

end Execution

/-- The invariants from which the bounds of `d` in the loop are computed: those of its own record,
the start of the control and the limits on it. -/
inductive LoopInfo.Reads (loop : LoopInfo) (d : DefId) : Invariant → Prop
  | invariant {x} (hd : loop.induction d = some (.invariant x)) : Reads loop d x
  | initial {ptr initial next} (hd : loop.induction d = some (.linear ptr initial next)) :
    Reads loop d initial
  | start {ptr initial next ptr' initial' next'}
    (hd : loop.induction d = some (.linear ptr initial next))
    (hc : loop.control = some (.linear ptr' initial' next')) : Reads loop d initial'
  | limit {ptr initial next ptr' initial' next' b}
    (hd : loop.induction d = some (.linear ptr initial next))
    (hc : loop.control = some (.linear ptr' initial' next')) (hb : b ∈ loop.bounds ptr') :
    Reads loop d b.limit

/-- The definitions that the bounds of `index` depend on. -/
inductive Used (nest : List LoopInfo) (index : DefId) : DefId → Prop
  | index : Used nest index index
  | read {loop d x d'} (h : Used nest index d) (hl : loop ∈ nest) (hx : loop.Reads d x)
    (hd : x.defn = some d') : Used nest index d'

/-- Nothing that the bounds of `index` rely on wraps around: each induction starts at its exact
distance from its loop's control, and the constants leave room for the sums of the analysis. -/
structure Execution.NoWrapAround {g : Dominance} {nest : List LoopInfo} {pos : InstrId}
    (e : Execution g nest pos) (index : DefId) : Prop where
  start : ∀ {loop d ptr initial next ptr' initial' next' off}, loop ∈ nest → Used nest index d →
    loop.induction d = some (.linear ptr initial next) →
    loop.control = some (.linear ptr' initial' next') →
    initial.differenceWith initial' = some off →
    (initial'.eval e.value).toInt = (initial.eval e.value).toInt + off.toInt
  small : ∃ M : Int, 0 ≤ M ∧ M + nest.length * (3 * M + 1) < 2 ^ 62 ∧
    ∀ {loop d x}, loop ∈ nest → Used nest index d → loop.Reads d x → x.offset.Within M

/-- The meaning of a comparison. -/
def Comparison.Holds : Comparison → Int64 → Int64 → Prop
  | .kEQ, x, y => x = y
  | .kNE, x, y => x ≠ y
  | .kLT, x, y => x < y
  | .kGT, x, y => y < x
  | .kLTE, x, y => x ≤ y
  | .kGTE, x, y => y ≤ x

/-- The branch goes to a successor that the loop contains. -/
def Branch.Stays (b : Branch) (l r : Int64) : Prop :=
  (b.cmp.Holds l r ∧ b.containsTrue = true) ∨
    (¬ b.cmp.Holds l r ∧ b.containsFalse = true)

namespace Proof

open Int64

/-! ## Records -/

variable {ptr : Nat} {c : Int64} {y : Invariant} {v : DefId → Int64} {d : DefId} {cmp : Comparison}
  {b : Branch} {loop : LoopInfo}

section
variable {x : Invariant}

theorem constantValue_eq_some : x.constantValue = some c ↔ x.mult = 0 ∧ x.offset = c := by
  simp [Invariant.constantValue]

theorem eval_constant (h : x.constantValue = some c) : x.eval v = c := by
  obtain ⟨hm, rfl⟩ := constantValue_eq_some.1 h
  simp [Invariant.eval, hm]

theorem eval_addConstant (x : Invariant) (c : Int64) : (x.addConstant c).eval v = x.eval v + c := by
  simp only [Invariant.eval, Invariant.addConstant]
  rw [Int64.add_assoc, Int64.add_comm c, ← Int64.add_assoc]

theorem eval_const (c : Int64) : (Invariant.const c).eval v = c := by
  simp [Invariant.eval, Invariant.const]

theorem eval_difference {d : Int64} (h : x.differenceWith y = some d) :
    y.eval v = x.eval v + d := by
  unfold Invariant.differenceWith at h
  split at h
  · rename_i hxy
    cases h
    simp only [Invariant.eval, hxy.1, hxy.2]
    grind
  · cases h

theorem eval_isEqual (h : x.isEqual y = true) : x.eval v = y.eval v := by
  simp only [Invariant.isEqual, Bool.and_eq_true, Bool.or_eq_true, beq_iff_eq] at h
  obtain ⟨⟨ho, hm⟩, h0 | hd⟩ := h
  · simp [Invariant.eval, ho, ← hm, h0]
  · simp [Invariant.eval, ho, hm, hd]

theorem eval_arrayLength {g : Dominance} (h : x.isArrayLength g = true) :
    ∃ d, g.isArrayLength d = true ∧ x.eval v = x.offset + v d := by
  simp only [Invariant.isArrayLength, Bool.and_eq_true, beq_iff_eq, Option.any_eq_true] at h
  obtain ⟨hm, d, hd, hl⟩ := h
  refine ⟨d, hl, ?_⟩
  simp [Invariant.eval, hm, hd]

theorem eval_up {ini next : Invariant} (h : next.eval v = 1) (k : Nat) :
    (linear ptr ini next).eval v k = ini.eval v + ofNat k := by
  simp [eval, h]

theorem eval_down {ini next : Invariant} (h : next.eval v = -1) (k : Nat) :
    (linear ptr ini next).eval v k = ini.eval v - ofNat k := by
  simp only [eval, h]
  grind

end

/-! ## Arithmetic on induction variables -/

section

theorem eval_combine {op : Int64 → Int64 → Int64} {s : Int64} (hop : ∀ a b, op a b = a + s * b)
    {h : op 0 0 = 0} {x r : Invariant} (hr : x.combine op h y = some r) :
    r.eval v = op (x.eval v) (y.eval v) := by
  simp only [Invariant.combine] at hr
  split_ifs at hr with hd hy hx
  all_goals
    cases hr
    simp only [Invariant.eval, hop]
  · rw [hd]
    grind
  · rw [hy]
    grind
  · rw [hx]
    grind

theorem eval_invariantAdd {x r : Invariant} (h : x.add y = some r) :
    r.eval v = x.eval v + y.eval v :=
  eval_combine (s := 1) (by simp) h

theorem eval_invariantSub {x r : Invariant} (h : x.sub y = some r) :
    r.eval v = x.eval v - y.eval v :=
  eval_combine (s := -1) (by grind) h

theorem eval_invariantMul (x : Invariant) (c : Int64) : (x.mul c).eval v = c * x.eval v := by
  simp only [Invariant.mul, Invariant.eval]
  grind

theorem bind_two {α β γ : Type} {a : Option α} {b : Option β} {F : α → β → γ} {r : γ}
    (h : (do return F (← a) (← b)) = some r) : ∃ i n, a = some i ∧ b = some n ∧ F i n = r := by
  simpa [bind_eq_some_iff] using h

/-- A map that is affine on the values of invariants is the same map on every iteration. -/
theorem eval_map {f step : Invariant → Option Invariant} {φ ψ : Int64 → Int64}
    (hf : ∀ {x r}, f x = some r → r.eval v = φ (x.eval v))
    (hst : ∀ {x r}, step x = some r → r.eval v = ψ (x.eval v))
    (haf : ∀ a b k, φ (a + b * k) = φ a + ψ b * k) {x r : InductionVar}
    (h : x.map f step ptr = some r) (k : Nat) : r.eval v k = φ (x.eval v k) := by
  induction x generalizing r k with
  | invariant x =>
    obtain ⟨y, hy, rfl⟩ := map_eq_some_iff.1 h
    exact hf hy
  | linear _ initial next =>
    obtain ⟨i, n, hi, hn, rfl⟩ := bind_two h
    simp only [eval, hf hi, hst hn, haf]
  | wrapAround initial next ih =>
    obtain ⟨i, n, hi, hn, rfl⟩ := bind_two h
    cases k with
    | zero => exact hf hi
    | succ k => exact ih hn k
  | periodic initial next =>
    obtain ⟨i, n, hi, hn, rfl⟩ := bind_two h
    simp only [eval, hf hi, hf hn]
    split <;> rfl

theorem eval_some {x r : Invariant} (h : some x = some r) : r.eval v = id (x.eval v) := by
  cases h
  rfl

theorem eval_add {x y r : InductionVar} (h : x.add ptr y = some r) (k : Nat) :
    r.eval v k = x.eval v k + y.eval v k := by
  unfold add at h
  split at h
  · exact eval_map eval_invariantAdd eval_some (by grind) h k
  · exact eval_map (φ := fun t => t + _) eval_invariantAdd eval_some (by grind) h k
  · obtain ⟨i, n, hi, hn, rfl⟩ := bind_two h
    simp only [eval, eval_invariantAdd hi, eval_invariantAdd hn]
    grind
  · cases h

theorem eval_sub {x y r : InductionVar} (h : x.sub ptr y = some r) (k : Nat) :
    r.eval v k = x.eval v k - y.eval v k := by
  unfold sub at h
  split at h
  · refine eval_map eval_invariantSub (ψ := fun t => 0 - t) (fun h => ?_) (by grind) h k
    rw [eval_invariantSub h, eval_const]
  · exact eval_map (φ := fun t => t - _) eval_invariantSub eval_some (by grind) h k
  · obtain ⟨i, n, hi, hn, rfl⟩ := bind_two h
    simp only [eval, eval_invariantSub hi, eval_invariantSub hn]
    grind
  · cases h

theorem eval_inductionConstant {x : InductionVar} (h : x.constantValue = some c)
    (k : Nat) : x.eval v k = c := by
  cases x with
  | invariant x => exact eval_constant h
  | _ => cases h

theorem eval_mulConstant {y r : InductionVar}
    (h : y.map (fun z => some (z.mul c)) (fun z => some (z.mul c)) ptr = some r) (k : Nat) :
    r.eval v k = c * y.eval v k := by
  refine eval_map (ψ := (c * ·)) ?_ ?_ (by grind) h k
  all_goals
    intro x r h
    cases h
    exact eval_invariantMul x c

theorem eval_mul {x y r : InductionVar} (h : x.mul ptr y = some r) (k : Nat) :
    r.eval v k = x.eval v k * y.eval v k := by
  simp only [mul, bind_eq_bind] at h
  split_ifs at h
  all_goals
    obtain ⟨c, hc, h⟩ := bind_eq_some_iff.1 h
    rw [eval_mulConstant h, eval_inductionConstant hc]
  exact Int64.mul_comm _ _

/-- **The arithmetic of the analysis**: a sum, difference or product of two records has in every
iteration the wrap-around sum, difference or product of their values. -/
theorem induction_arithmetic (v : DefId → Int64) (ptr : Nat) (x y r : InductionVar) :
    (x.add ptr y = some r → ∀ k, r.eval v k = x.eval v k + y.eval v k) ∧
      (x.sub ptr y = some r → ∀ k, r.eval v k = x.eval v k - y.eval v k) ∧
      (x.mul ptr y = some r → ∀ k, r.eval v k = x.eval v k * y.eval v k) :=
  ⟨eval_add, eval_sub, eval_mul⟩

/-- An array's length minus a wrap-around of a linear record. -/
theorem induction_arithmetic_nested :
    let x := InductionVar.invariant ⟨0, 1, some 3, .inr nofun⟩
    let y := InductionVar.wrapAround (.const 5) (.linear 0 (.const 1) (.const 2))
    ∃ r, x.sub 1 y = some r ∧ ∀ v k, r.eval v k = x.eval v k - y.eval v k :=
  ⟨_, rfl, fun v k => (induction_arithmetic v 1 _ _ _).2.1 rfl k⟩

end

/-! ## Adjusting a range -/

section
variable {g : Dominance} {lower up min max : Invariant} {lo uo : Int64}

/-- What `SafelyAdjust` computes, and what it has tested. -/
theorem safelyAdjust_cases (h : safelyAdjust g lower lo up uo = some (min, max)) :
    ∃ lval, lower.constantValue = some lval ∧
      ((∃ uval, up.constantValue = some uval ∧ lval + lo ≤ uval + uo) ∨
        (up.isArrayLength g = true ∧ up.offset + uo ≤ 0 ∧
          ((0 ≤ lo ∧ lval ≤ lval + lo) ∨ (lo < 0 ∧ lval + lo < lval)))) ∧
      min = (if lo = 0 then lower else .const (lval + lo)) ∧
      max = (if uo = 0 then up else up.addConstant uo) := by
  simp only [safelyAdjust, Option.pure_def, bind_eq_bind, bind_eq_some_iff] at h
  obtain ⟨lval, hl, h⟩ := h
  refine ⟨lval, hl, ?_⟩
  cases hu : up.constantValue with
  | some uval =>
    simp only [hu, decide_eq_true_eq] at h
    split at h
    · simp only [some.injEq, Prod.mk.injEq] at h
      rename_i hle
      rw [(constantValue_eq_some.1 hu).2] at hle
      exact ⟨.inl ⟨uval, rfl, hle⟩, h.1.symm, h.2.symm⟩
    · cases h
  | none =>
    simp only [hu, Bool.and_eq_true, Bool.or_eq_true, decide_eq_true_eq] at h
    split at h
    · simp only [some.injEq, Prod.mk.injEq] at h
      rename_i hs
      exact ⟨.inr ⟨hs.1.1, hs.2, hs.1.2⟩, h.1.symm, h.2.symm⟩
    · cases h

theorem safelyAdjust_eval (h : safelyAdjust g lower lo up uo = some (min, max)) :
    min.eval v = lower.eval v + lo ∧ max.eval v = up.eval v + uo := by
  obtain ⟨lval, hl, -, rfl, rfl⟩ := safelyAdjust_cases h
  constructor
  · split
    · simp [*]
    · rw [eval_const, eval_constant hl]
  · split
    · simp [*]
    · rw [eval_addConstant]

theorem safelyAdjust_offset (h : safelyAdjust g lower lo up uo = some (min, max)) :
    min.offset = lower.offset + lo ∧ max.offset = up.offset + uo := by
  obtain ⟨lval, hl, -, rfl, rfl⟩ := safelyAdjust_cases h
  rw [(constantValue_eq_some.1 hl).2]
  constructor <;> split <;> simp [*, Invariant.const, Invariant.addConstant,
    (constantValue_eq_some.1 hl).2]

/-- The upper end is a constant, or a length with a constant that stays non-positive. -/
theorem safelyAdjust_upper (hlen : ∀ {d}, g.isArrayLength d = true → 0 ≤ v d)
    (h : safelyAdjust g lower lo up uo = some (min, max)) : ∃ l : Int64,
      up.eval v = up.offset + l ∧ 0 ≤ l.toInt ∧ (l.toInt = 0 ∨ (up.offset + uo).toInt ≤ 0) := by
  obtain ⟨lval, -, hs, -, -⟩ := safelyAdjust_cases h
  have h0 := Int64.toInt_zero
  rcases hs with ⟨uval, hu, -⟩ | ⟨hln, hc, -⟩
  · refine ⟨0, ?_, by decide, .inl h0⟩
    rw [eval_constant hu, (constantValue_eq_some.1 hu).2, Int64.add_zero]
  · obtain ⟨d, hd, he⟩ := eval_arrayLength hln
    exact ⟨v d, he, h0 ▸ le_iff_toInt_le.1 (hlen hd), .inr (h0 ▸ le_iff_toInt_le.1 hc)⟩

/-- The upper bounds that come out of `SafelyAdjust`. -/
def ProperUpper (g : Dominance) (x : Invariant) : Prop :=
  (∃ c, x.constantValue = some c) ∨ (x.isArrayLength g = true ∧ x.offset ≤ 0)

theorem safelyAdjust_proper (h : safelyAdjust g lower lo up uo = some (min, max)) :
    (∃ c, min.constantValue = some c) ∧ ProperUpper g max := by
  obtain ⟨lval, hl, hs, rfl, rfl⟩ := safelyAdjust_cases h
  constructor
  · split
    · exact ⟨_, hl⟩
    · exact ⟨_, rfl⟩
  rcases hs with ⟨uval, hu, -⟩ | ⟨hln, hc, -⟩
  · left
    split
    · exact ⟨_, hu⟩
    · exact ⟨_, constantValue_eq_some.2 ⟨(constantValue_eq_some.1 hu).1, rfl⟩⟩
  · right
    split
    · rename_i h0
      rw [h0, Int64.add_zero] at hc
      exact ⟨hln, hc⟩
    · exact ⟨hln, hc⟩

/-- `i + C` for `i` in `[lower, upper]`. -/
theorem safelyAdjust_shift (hlen : ∀ {d}, g.isArrayLength d = true → 0 ≤ v d) {x : Int64}
    (hlw : lower.eval v ≤ x) (hup : x ≤ up.eval v) (hu : ProperUpper g up)
    (h : safelyAdjust g lower lo up lo = some (min, max)) :
    min.eval v ≤ x + lo ∧ x + lo ≤ max.eval v := by
  obtain ⟨hmn, hmx⟩ := safelyAdjust_eval h
  rw [hmn, hmx]
  obtain ⟨lval, hl, hs, -, -⟩ := safelyAdjust_cases h
  rw [eval_constant hl] at hlw ⊢
  rcases hs with ⟨uval, huv, hle⟩ | ⟨hln, hc, hw⟩
  · rw [eval_constant huv] at hup ⊢
    exact add_mem_range hlw hup hle
  obtain ⟨d, hd, he⟩ := eval_arrayLength hln
  have ho : up.offset ≤ 0 := by
    rcases hu with ⟨c, hc⟩ | hu
    · simp only [Invariant.isArrayLength, Bool.and_eq_true, beq_iff_eq] at hln
      have hm := (constantValue_eq_some.1 hc).1
      rw [hln.1] at hm
      exact absurd hm (by decide)
    · exact hu.2
  rw [he] at hup ⊢
  have := add_mem_length hlw hup (hlen hd) ho hc hw
  refine ⟨this.1, ?_⟩
  rw [Int64.add_assoc, Int64.add_comm (v d), ← Int64.add_assoc]
  exact this.2

end

/-! ## Computed bounds -/

section
variable {g : Dominance} {nest outer : List LoopInfo} {pos q : InstrId} {e : Execution g nest pos}
  {bds : InstrId → Invariant → Option (Invariant × Invariant)} {min max : Invariant}
  {x : InductionVar}

/-- The bounds of an invariant are right where the execution has been. -/
def BoundsSound (e : Execution g nest pos)
    (bds : InstrId → Invariant → Option (Invariant × Invariant)) : Prop :=
  ∀ q x min max, e.Reached q → bds q x = some (min, max) →
    min.eval e.value ≤ x.eval e.value ∧ x.eval e.value ≤ max.eval e.value

theorem Reached.branch {b : InstrId} (hq : e.Reached q) (hb : g.isDominatedBy q b = true) :
    g.isDominatedBy pos b = true := by
  rcases hq with rfl | hq
  · exact hb
  · exact g.trans hq hb

/-- The bound that decides, and the limit's bounds at its branch. -/
theorem controlBounds_cases {sd off : Int64} {lmin lmax : Invariant} : ∀ {bs : List Bound},
    controlBounds g bds q sd off lmin lmax bs = some (min, max) →
    ∃ b ∈ bs, ∃ umin umax, g.isDominatedBy q b.branch = true ∧
      bds b.branch b.limit = some (umin, umax) ∧
      (if 0 < sd then safelyAdjust g lmin 0 umax (-sd - off)
        else safelyAdjust g umin (-sd - off) lmax 0) = some (min, max)
  | [], h => by cases h
  | b :: bs, h => by
    unfold controlBounds at h
    split at h
    · rename_i hd
      split at h
      · rename_i umin umax hu
        exact ⟨b, .head _, umin, umax, hd, hu, h⟩
      · obtain ⟨b', hb', hr⟩ := controlBounds_cases h
        exact ⟨b', .tail _ hb', hr⟩
    · obtain ⟨b', hb', hr⟩ := controlBounds_cases h
      exact ⟨b', .tail _ hb', hr⟩

/-- What `CanComputeBounds` has found when it succeeds on an induction. -/
theorem inductionBounds_cases (h : inductionBounds g loop bds q x = some (min, max)) :
    ∃ ptr initial next ptr' initial' next' stride off lmin lmax,
      x = .linear ptr initial next ∧ loop.control = some (.linear ptr' initial' next') ∧
      next.constantValue = some stride ∧ (stride = 1 ∨ stride = -1) ∧
      next.isEqual next' = true ∧ initial.differenceWith initial' = some off ∧
      bds q initial = some (lmin, lmax) ∧
      controlBounds g bds q stride off lmin lmax (loop.bounds ptr') = some (min, max) := by
  unfold inductionBounds at h
  split at h
  · rename_i ptr initial next ptr' initial' next' hc
    simp only [bind_eq_bind, bind_eq_some_iff] at h
    obtain ⟨stride, hst, h⟩ := h
    split at h
    · rename_i hs
      simp only [bind_eq_some_iff] at h
      obtain ⟨off, ho, ⟨lmin, lmax⟩, hl, h⟩ := h
      unfold canComputeDifferenceWith at ho
      simp only at ho
      split at ho
      · exact ⟨ptr, initial, next, ptr', initial', next', stride, off, lmin, lmax, rfl, hc, hst,
          hs, ‹_›, ho, hl, h⟩
      · cases ho
    · cases h
  · cases h

/-- The bounds of `x` hold, and for a constant of `x` up to `M` their constants are up to `A`. -/
def Brackets (e : Execution g nest pos) (M A : Int) (x min max : Invariant) : Prop :=
  (min.eval e.value ≤ x.eval e.value ∧ x.eval e.value ≤ max.eval e.value) ∧
    (x.offset.Within M → min.offset.Within A ∧ max.offset.Within A)

theorem brackets_self {M A : Int} (h : M ≤ A) (x : Invariant) : Brackets e M A x x x :=
  ⟨⟨Int64.le_refl _, Int64.le_refl _⟩, fun hx => ⟨hx.mono h, hx.mono h⟩⟩

theorem Brackets.mono {M A B : Int} {x : Invariant} (hx : Brackets e M A x min max) (h : A ≤ B) :
    Brackets e M B x min max :=
  ⟨hx.1, fun hM => ⟨(hx.2 hM).1.mono h, (hx.2 hM).2.mono h⟩⟩

/-- The bounds of invariants over used definitions, where the execution has been. -/
def Trusted (e : Execution g nest pos) (index : DefId) (M A : Int)
    (bds : InstrId → Invariant → Option (Invariant × Invariant)) : Prop :=
  ∀ q x min max, (∀ d, x.defn = some d → Used nest index d) → e.Reached q →
    bds q x = some (min, max) → Brackets e M A x min max

section
variable {index : DefId} {M A : Int} (hw : e.NoWrapAround index)
  (hM : ∀ {loop d x}, loop ∈ nest → Used nest index d → loop.Reads d x → x.offset.Within M)
include hw hM

/-- **The bounds computed for an induction hold**, and their constants are small. -/
theorem inductionBounds_sound (hl : loop ∈ nest) (hbounds : Trusted e index M A bds)
    (hq : e.Reached q) (hu : Used nest index d) (hd : loop.induction d = some x)
    (hA : 0 ≤ M ∧ M ≤ A ∧ A + (2 * M + 1) < 2 ^ 62)
    (h : inductionBounds g loop bds q x = some (min, max)) :
    (min.eval e.value ≤ e.value d ∧ e.value d ≤ max.eval e.value) ∧
      min.offset.Within (A + (2 * M + 1)) ∧ max.offset.Within (A + (2 * M + 1)) := by
  obtain ⟨ptr, initial, next, ptr', initial', next', stride, off, lmin, lmax, rfl, hc, hsr, hs,
    hn, ho, hli, hcb⟩ := inductionBounds_cases h
  obtain ⟨b, hb, umin, umax, hdm, hul, ha⟩ := controlBounds_cases hcb
  have hdm' := Reached.branch hq hdm
  obtain ⟨d', _, _, _, b', heq, hd', hb', hh⟩ := loop.control_bound hc
  cases heq
  -- The branch at the end of the header has been taken in every earlier iteration.
  have hst := fun k (hk : k < e.iteration loop.id) => e.header_bound hl hd' hb' hh hk
  have hbn := e.bound hl hd' hb hdm'
  have hnv : next.eval e.value = stride := eval_constant hsr
  have hnv' : next'.eval e.value = stride := by rw [← eval_isEqual hn, hnv]
  -- The start and the limit have bounds with small constants.
  have hri : loop.Reads d initial := .initial hd
  have hrl : loop.Reads d b.limit := .limit hd hc hb
  obtain ⟨⟨hlw, hup⟩, hls⟩ := hbounds _ _ _ _ (fun _ => .read hu hl hri) hq hli
  obtain ⟨⟨hlu, huu⟩, hus⟩ := hbounds _ _ _ _ (fun _ => .read hu hl hrl) (.inr hdm') hul
  replace hls := hls (hM hl hu hri)
  replace hus := hus (hM hl hu hrl)
  have hoff : off.Within (2 * M) := by
    unfold Invariant.differenceWith at ho
    split at ho <;> cases ho
    rw [two_mul]
    exact (hM hl hu (.start hd hc)).sub (hM hl hu hri) (by omega)
  have hadj : ∀ {u c : Int64}, u.Within A → c.Within 1 →
      (u + (c - off)).Within (A + (2 * M + 1)) := by
    intro u c hu hc
    have := hu.add (hc.sub hoff (by omega)) (by omega)
    rwa [Int.add_comm 1] at this
  have hex := hw.start hl hu hd hc ho
  rw [e.induction hl hd]
  rcases hs with rfl | rfl
  · rw [if_pos (by decide)] at ha
    have hlt := Int64.lt_of_lt_of_le (hbn.1 hnv') huu
    rw [eval_up hnv'] at hlt
    have hcn := @toInt_count_up _ (b'.limit.eval e.value) (e.iteration loop.id) fun k hk => by
      rw [← eval_up hnv']
      exact (hst k hk).1 hnv'
    obtain ⟨hm, hmx⟩ := safelyAdjust_eval ha
    obtain ⟨hmo, hmxo⟩ := safelyAdjust_offset ha
    obtain ⟨l, hle, hl0, hl1⟩ := safelyAdjust_upper e.length_nonneg ha
    have hfl := follow_up hex hus.2 hoff (by omega) hl0 hl1 hcn (hle ▸ hlt)
    rw [← hle, ← hmx] at hfl
    rw [eval_up hnv]
    rw [Int64.add_zero] at hm hmo
    exact ⟨⟨Int64.le_trans (hm ▸ hlw) hfl.1, hfl.2⟩, hmo ▸ hls.1.mono (by omega),
      hmxo ▸ hadj hus.2 ⟨by decide, by decide⟩⟩
  · rw [if_neg (by decide)] at ha
    have hlt := Int64.lt_of_le_of_lt hlu (hbn.2 hnv')
    rw [eval_down hnv'] at hlt
    have hcn := @toInt_count_down _ (b'.limit.eval e.value) (e.iteration loop.id) fun k hk => by
      rw [← eval_down hnv']
      exact (hst k hk).2 hnv'
    obtain ⟨(hm : _ = umin.eval e.value + (1 - off)), hmx⟩ := safelyAdjust_eval ha
    obtain ⟨hmo, hmxo⟩ := safelyAdjust_offset ha
    obtain ⟨lval, hcv, -⟩ := safelyAdjust_cases ha
    have hue : umin.eval e.value = umin.offset := by
      rw [eval_constant hcv, (constantValue_eq_some.1 hcv).2]
    have hfl := follow_down hex hus.1 hoff (by omega) hcn (hue ▸ hlt)
    rw [← hue, ← hm] at hfl
    rw [eval_down hnv]
    rw [Int64.add_zero] at hmx hmxo
    exact ⟨⟨hfl.2, Int64.le_trans hfl.1 (hmx ▸ hup)⟩,
      hmo ▸ hadj hus.1 ⟨by decide, by decide⟩, hmxo ▸ hls.2.mono (by omega)⟩

end

/-- The upper bound of an induction is a constant, or a length with a non-positive offset. -/
theorem inductionBounds_proper (h : inductionBounds g loop bds q x = some (min, max)) :
    ProperUpper g max := by
  obtain ⟨_, _, _, _, _, _, stride, _, _, _, -, -, -, -, -, -, -, hcb⟩ := inductionBounds_cases h
  obtain ⟨_, -, _, _, -, -, ha⟩ := controlBounds_cases hcb
  split at ha
  · exact (safelyAdjust_proper ha).2
  · exact (safelyAdjust_proper ha).2

theorem le_budget {M : Int} {n : Nat} (h : 0 ≤ M) : M ≤ M + n * (3 * M + 1) :=
  Int.le_add_of_nonneg_right (Int.mul_nonneg (Int.natCast_nonneg _) (by omega))

/-- **The bounds computed for an invariant hold**, and their constants grow with each loop. -/
theorem invariantBounds_trusted {index : DefId} {M : Int} (hw : e.NoWrapAround index) (hM0 : 0 ≤ M)
    (hL : M + nest.length * (3 * M + 1) < 2 ^ 62)
    (hM : ∀ {loop d x}, loop ∈ nest → Used nest index d → loop.Reads d x → x.offset.Within M) :
    ∀ {outer : List LoopInfo}, outer <:+ nest →
      Trusted e index M (M + outer.length * (3 * M + 1)) (invariantBounds g outer)
  | [], _ => by
    intro q x min max _ _ h
    cases h
    exact brackets_self (by simp) x
  | loop :: outer, hsf => by
    intro q x min max hx hq h
    have hl : loop ∈ nest := hsf.subset mem_cons_self
    have hr := invariantBounds_trusted hw hM0 hL hM ((suffix_cons loop outer).trans hsf)
    have hsum : M + ((loop :: outer).length : Int) * (3 * M + 1) =
        M + outer.length * (3 * M + 1) + (2 * M + 1) + M := by
      rw [length_cons]
      push_cast
      ring
    have hle : M + ((loop :: outer).length : Int) * (3 * M + 1) < 2 ^ 62 := by
      have := Int.mul_le_mul_of_nonneg_right (Int.ofNat_le.2 hsf.length_le)
        (by omega : 0 ≤ 3 * M + 1)
      omega
    have hMA : M ≤ M + (outer.length : Int) * (3 * M + 1) := le_budget hM0
    rw [hsum] at hle ⊢
    generalize M + (outer.length : Int) * (3 * M + 1) = A at *
    unfold invariantBounds at h
    split at h
    · cases h
      exact brackets_self (by omega) x
    rename_i d hd
    split at h
    · rename_i hm
      split at h
      · rename_i induc hi
        split at h
        · rename_i imin imax hb
          obtain ⟨hbt, hmn, hmx⟩ := inductionBounds_sound hw hM hl hr hq (hx d hd) hi
            ⟨hM0, hMA, by omega⟩ hb
          have heq : x.eval e.value = e.value d + x.offset := by
            simp [Invariant.eval, hm, hd, Int64.add_comm]
          obtain ⟨hmo, hmxo⟩ := safelyAdjust_offset h
          rw [Brackets, heq, hmo, hmxo]
          exact ⟨safelyAdjust_shift e.length_nonneg hbt.1 hbt.2 (inductionBounds_proper hb) h,
            fun hs => ⟨hmn.add hs hle, hmx.add hs hle⟩⟩
        · exact (hr _ _ _ _ hx hq h).mono (by omega)
      · exact (hr _ _ _ _ hx hq h).mono (by omega)
    · cases h
      exact brackets_self (by omega) x

/-! ## Index checks -/

/-- The limit `x` is no higher than a length at a non-positive distance, since the length is not
negative. -/
theorem le_of_difference {len : InductionVar} {k : Nat} {x : Invariant}
    {diff : Int64} (h : len.canComputeDifferenceWith (.invariant x) = some diff) (hd : diff ≤ 0)
    (hl : 0 ≤ len.eval v k) : x.eval v - len.eval v k = diff ∧ x.eval v ≤ len.eval v k := by
  cases len with
  | invariant y =>
    have heq : x.eval v - y.eval v = diff := by
      rw [eval_difference h]
      grind
    exact ⟨heq, le_of_sub_nonpos heq hd hl⟩
  | _ => cases h

theorem canComputeBounds_sound {e : Execution g (loop :: outer) pos}
    (hw : e.NoWrapAround d) (hd : loop.induction d = some x)
    (h : canComputeBounds g loop outer pos x = some (min, max)) :
    min.eval e.value ≤ e.value d ∧ e.value d ≤ max.eval e.value := by
  have hl : loop ∈ loop :: outer := .head _
  obtain ⟨M, hM0, hL, hM⟩ := hw.small
  have hbounds := invariantBounds_trusted hw hM0 hL hM (suffix_cons loop outer)
  have hi : inductionBounds g loop (invariantBounds g outer) pos x = some (min, max) → _ :=
    fun h => (inductionBounds_sound hw hM hl hbounds (.inl rfl) .index hd ⟨hM0, le_budget hM0,
      by rw [length_cons] at hL; push_cast [Int.add_mul] at hL; omega⟩ h).1
  cases x with
  | invariant y =>
    rw [e.induction hl hd]
    exact (hbounds _ _ _ _ (fun _ => .read .index hl (.invariant hd)) (.inl rfl) h).1
  | _ => exact hi h

end

/-! ## Loop control -/

theorem holds_negate {x y : Int64} : cmp.negate.Holds x y ↔ ¬ cmp.Holds x y := by
  cases cmp <;> simp [Comparison.negate, Comparison.Holds, Int64.not_lt, Int64.not_le]

theorem holds_flip {x y : Int64} : cmp.flip.Holds y x ↔ cmp.Holds x y := by
  cases cmp <;> simp [Comparison.flip, Comparison.Holds, eq_comm]

theorem loopWhile_holds (h : b.loopWhile = some cmp) {l r : Int64} (hs : b.Stays l r) :
    cmp.Holds l r := by
  unfold Branch.loopWhile at h
  split at h
  · rename_i hc
    cases h
    rcases hs with ⟨hs, -⟩ | ⟨-, hf⟩
    · exact hs
    · simp [hf] at hc
  · split at h <;> cases h
    rename_i hc
    rcases hs with ⟨-, ht⟩ | ⟨hs, -⟩
    · simp [ht] at hc
    · exact holds_negate.2 hs

theorem linear_some {x : LinearRecord loop} (h : loop.linear d = some x) : x.defn = d := by
  unfold LoopInfo.linear at h
  split at h
  · split at h <;> cases h
    rfl
  · cases h

theorem invariant_some (h : loop.invariant d = some y) :
    loop.induction d = some (.invariant y) := by
  unfold LoopInfo.invariant at h
  split at h <;> cases h
  assumption

variable {cmp' cmp : Comparison}

/-- The oriented comparison says the same of the induction and the invariant. -/
theorem orient_holds {x : LinearRecord loop} (h : loop.orient b cmp = some (x, y, cmp')) :
    ∃ l r, loop.induction b.left = some l ∧ loop.induction b.right = some r ∧ ∀ v k,
      cmp.Holds (l.eval v k) (r.eval v k) →
        cmp'.Holds ((linear x.ptr x.initial x.next).eval v k) (y.eval v) := by
  have hx := x.found
  unfold LoopInfo.orient at h
  split at h
  · rename_i x' y' hx' hy'
    cases h
    rw [linear_some hx'] at hx
    exact ⟨_, _, hx, invariant_some hy', fun v k hc => hc⟩
  · split at h <;> cases h
    rename_i hx' hy'
    rw [linear_some hx'] at hx
    exact ⟨_, _, invariant_some hy', hx, fun v k hc => holds_flip.2 hc⟩

section
variable {g : Dominance} {nest : List LoopInfo} {pos branch : InstrId} {e : Execution g nest pos}
variable {outer : List LoopInfo} (hbounds : BoundsSound e (invariantBounds g outer))
include hbounds
theorem canBeMadeExclusive_upper (hq : e.Reached branch)
    (h : canBeMadeExclusive g outer y branch false = true) : y.eval e.value < Int64.maxValue := by
  unfold canBeMadeExclusive at h
  split at h
  · cases h
  rename_i min max hb
  have hle := (hbounds _ _ _ _ hq hb).2
  simp only [Bool.false_eq_true, ↓reduceIte] at h
  cases hc : max.constantValue with
  | some c =>
    simp only [hc, decide_eq_true_eq] at h
    rw [eval_constant hc] at hle
    exact Int64.lt_of_le_of_lt hle h
  | none =>
    simp only [hc, Bool.and_eq_true, decide_eq_true_eq] at h
    obtain ⟨d, hd, hev⟩ := eval_arrayLength h.1
    rw [hev] at hle
    exact Int64.lt_of_le_of_lt hle (add_length_lt_max h.2 (e.length_nonneg hd))

theorem canBeMadeExclusive_lower (hq : e.Reached branch)
    (h : canBeMadeExclusive g outer y branch true = true) : Int64.minValue < y.eval e.value := by
  unfold canBeMadeExclusive at h
  split at h
  · cases h
  rename_i min max hb
  have hle := (hbounds _ _ _ _ hq hb).1
  simp only [↓reduceIte, Option.any_eq_true, decide_eq_true_eq] at h
  obtain ⟨c, hc, hlt⟩ := h
  rw [eval_constant hc] at hle
  exact Int64.lt_of_lt_of_le hlt hle

theorem strictLimit_strict (hq : e.Reached branch) {ini next lim : Invariant} {sd : Int64} {n : Nat}
    (hst : next.constantValue = some sd) (h : strictLimit g outer branch sd ini y cmp = some lim)
    (hnw : cmp.Holds ((linear ptr ini next).eval e.value n) (y.eval e.value))
    (ha : cmp = .kNE → ∀ k < n, (linear ptr ini next).eval e.value k ≠ y.eval e.value) : StrictBound
    sd ((linear ptr ini next).eval e.value n) (lim.eval e.value) := by
  have hnv : next.eval e.value = sd := eval_constant hst
  have hup : ∀ {p : Prop}, sd = 1 → p → (sd = 1 → p) ∧
      (sd = -1 → lim.eval e.value < (linear ptr ini next).eval e.value n) :=
    fun h1 hp => ⟨fun _ => hp, fun h2 => absurd (h1.symm.trans h2) (by decide)⟩
  have hd : ∀ {p : Prop}, sd = -1 → p →
      (sd = 1 → (linear ptr ini next).eval e.value n < lim.eval e.value) ∧
      (sd = -1 → p) :=
    fun h1 hp => ⟨fun h2 => absurd (h1.symm.trans h2) (by decide), fun _ => hp⟩
  cases cmp with
  | kEQ => cases h
  | kLT =>
    simp only [strictLimit] at h
    split at h <;> cases h
    exact hup ‹_› hnw
  | kGT =>
    simp only [strictLimit] at h
    split at h <;> cases h
    exact hd ‹_› hnw
  | kLTE =>
    simp only [strictLimit] at h
    split at h <;> cases h
    rename_i hc
    refine hup hc.1 ?_
    rw [eval_addConstant]
    exact lt_add_one_of_le hnw (canBeMadeExclusive_upper hbounds hq hc.2)
  | kGTE =>
    simp only [strictLimit] at h
    split at h
    · rename_i hc
      refine hd hc.1 ?_
      rw [← some.inj h, eval_addConstant]
      exact sub_one_lt_of_le hnw (canBeMadeExclusive_lower hbounds hq hc.2)
    · cases h
  | kNE =>
    simp only [strictLimit] at h
    split at h
    · rename_i start last hi hy
      have hne : ∀ k ≤ n,
          (linear ptr ini next).eval e.value k ≠ y.eval e.value := by
        intro k hk
        rcases Nat.lt_or_eq_of_le hk with hk | rfl
        · exact ha rfl k hk
        · exact hnw
      split at h <;> cases h
      rename_i hc
      rw [← eval_constant hi, ← eval_constant hy] at hc
      rcases hc with ⟨h1, hlt⟩ | ⟨h1, hlt⟩
      · refine hup h1 ?_
        rw [h1] at hnv
        have hcn := count_up_lt_of_ne hlt fun k hk => by
          rw [← eval_up hnv]; exact hne k hk
        have := (y.eval e.value).toInt_lt
        rw [eval_up hnv, lt_iff_toInt_lt, toInt_add_ofNat (by omega)]
        exact hcn
      · refine hd h1 ?_
        rw [h1] at hnv
        have hcn := count_down_lt_of_ne hlt fun k hk => by
          rw [← eval_down hnv]; exact hne k hk
        have := (y.eval e.value).le_toInt
        rw [eval_down hnv, lt_iff_toInt_lt, toInt_sub_ofNat (by omega)]
        exact hcn
    · cases h

theorem oriented_strict {loop : LoopInfo} (hq : e.Reached b.id) {x : LinearRecord loop}
    {lim : Invariant} (hb : b.loopWhile.bind (loop.orient b) = some (x, y, cmp))
    (hlm : strictLimit g outer b.id x.stride x.initial y cmp = some lim) :
    ∃ l r, loop.induction b.left = some l ∧ loop.induction b.right = some r ∧ ∀ n,
      b.Stays (l.eval e.value n) (r.eval e.value n) →
      (cmp = .kNE → ∀ k < n, b.Stays (l.eval e.value k) (r.eval e.value k)) →
      StrictBound x.stride ((linear x.ptr x.initial x.next).eval e.value n) (lim.eval e.value) := by
  obtain ⟨cmp0, hw, ho⟩ := bind_eq_some_iff.1 hb
  obtain ⟨l, r, hl, hr, ho⟩ := orient_holds ho
  refine ⟨l, r, hl, hr, fun n hnw ha => ?_⟩
  have hh := fun k hk => ho e.value k (loopWhile_holds hw hk)
  refine strictLimit_strict hbounds hq x.stride_eq hlm (hh n hnw) fun hne k hk => ?_
  have := hh k (ha hne k hk)
  rwa [hne] at this

/-- **A bound that `ClassifyControl` records is strict** in an iteration in which its branch stays
in the loop. For `i != E` the branch has to have stayed in every earlier iteration too, as the one
at the end of the header has. -/
theorem recorded_strict {loop : LoopInfo} (hq : e.Reached b.id) {x : LinearRecord loop}
    {lim : Invariant} (hb : b.loopWhile.bind (loop.orient b) = some (x, y, cmp))
    (hlm : strictLimit g outer b.id x.stride x.initial y cmp = some lim) {l r : InductionVar}
    (hl : loop.induction b.left = some l) (hr : loop.induction b.right = some r) {n : Nat}
    (hnw : b.Stays (l.eval e.value n) (r.eval e.value n))
    (ha : cmp = .kNE → ∀ k < n, b.Stays (l.eval e.value k) (r.eval e.value k)) : StrictBound
    x.stride ((linear x.ptr x.initial x.next).eval e.value n) (lim.eval e.value) := by
  obtain ⟨_, _, hl', hr', h⟩ := oriented_strict hbounds hq hb hlm
  cases hl.symm.trans hl'
  cases hr.symm.trans hr'
  exact h n hnw ha

variable {loop : LoopInfo} {n : Nat} {bd : Bound}

/-- The branch was reached, and has stayed in the loop up to iteration `n`. -/
def StayedUpTo (e : Execution g nest pos) (induction : DefId → Option InductionVar) (n : Nat)
    (b : Branch) : Prop :=
  e.Reached b.id ∧ ∀ l r, induction b.left = some l → induction b.right = some r →
    ∀ k ≤ n, b.Stays (l.eval e.value k) (r.eval e.value k)

/-- The bound is strict in iteration `n` of a record at the address. -/
def StrictAt (e : Execution g nest pos) (induction : DefId → Option InductionVar) (n ptr : Nat)
    (bd : Bound) : Prop :=
  ∃ d initial next, induction d = some (.linear ptr initial next) ∧
    StrictBound (next.eval e.value) ((linear ptr initial next).eval e.value n)
      (bd.limit.eval e.value)

omit hbounds in
theorem classifyBranch_induction :
    (loop.classifyBranch g outer b).induction = loop.induction := by
  unfold LoopInfo.classifyBranch
  split
  · rfl
  · split <;> rfl

theorem classifyBranch_strict (hs : StayedUpTo e loop.induction n b)
    (h : bd ∈ (loop.classifyBranch g outer b).bounds ptr) :
    bd ∈ loop.bounds ptr ∨ StrictAt e loop.induction n ptr bd := by
  unfold LoopInfo.classifyBranch at h
  split at h
  · exact .inl h
  rename_i x y cmp hb
  split at h
  · exact .inl h
  rename_i lim hlm
  simp only [LoopInfo.addBound] at h
  split at h
  · rename_i hptr
    rcases mem_append.1 h with h | h
    · exact .inl h
    obtain rfl := mem_singleton.1 h
    subst hptr
    obtain ⟨l, r, hl, hr, h⟩ := oriented_strict hbounds hs.1 hb hlm
    refine .inr ⟨x.defn, x.initial, x.next, x.found, ?_⟩
    rw [eval_constant x.stride_eq]
    exact h n (hs.2 l r hl hr n le_rfl) fun _ k hk => hs.2 l r hl hr k hk.le
  · exact .inl h

/-- **Every bound that `ClassifyControl` adds is strict** while the branches stay in the loop. -/
theorem classifyControl_strict {branches : List Branch}
    (hs : ∀ b ∈ branches, StayedUpTo e loop.induction n b)
    (h : bd ∈ (loop.classifyControl g outer branches).bounds ptr) :
    bd ∈ loop.bounds ptr ∨ StrictAt e loop.induction n ptr bd := by
  induction branches generalizing loop with
  | nil => exact .inl h
  | cons b bs ih =>
    have ih := @ih (loop.classifyBranch g outer b)
    rw [classifyBranch_induction] at ih
    rcases ih (fun b' hb' => hs b' (mem_cons_of_mem _ hb')) h with h | h
    · exact classifyBranch_strict hbounds (hs b mem_cons_self) h
    · exact .inr h

end

/-! `for (int i = 1; i < a.length; i++) a[i - 1]`, with `a.length` (1), `i` (2) and `i - 1` (3). -/

def shiftedLoop : LoopInfo where
  id := 0
  header := 10
  induction
    | 1 => some (.invariant ⟨0, 1, some 1, .inr nofun⟩)
    | 2 => some (.linear 1 (.const 1) (.const 1))
    | 3 => some (.linear 2 (.const 0) (.const 1))
    | _ => none
  bounds
    | 1 => [⟨10, ⟨0, 1, some 1, .inr nofun⟩⟩]
    | _ => []
  control := some (.linear 1 (.const 1) (.const 1))
  control_bound := by
    intro c hc
    cases hc
    exact ⟨2, 1, _, _, _, rfl, rfl, mem_singleton.2 rfl, rfl⟩

def lineDominance : Dominance where
  isArrayLength d := d == 1
  isDominatedBy p q := Nat.blt q p
  trans := by
    intro p q r hpq hqr
    rw [Nat.blt_eq] at hpq hqr ⊢
    omega

/-- The fourth iteration, with a list of length 5. -/
def shiftedExecution : Execution lineDominance [shiftedLoop] 30 where
  value
    | 1 => 5
    | 2 => 4
    | 3 => 3
    | _ => 0
  iteration _ := 3
  length_nonneg := by
    intro d hd
    obtain rfl : d = 1 := by simpa [lineDominance] using hd
    decide
  induction := by
    intro loop d x hloop hd
    obtain rfl := mem_singleton.1 hloop
    simp only [shiftedLoop] at hd
    split at hd <;> cases hd <;> rfl
  bound := by
    intro loop d ptr initial next b hloop hd hb _
    obtain rfl := mem_singleton.1 hloop
    simp only [shiftedLoop] at hd hb
    split at hd <;> cases hd
    · obtain rfl := mem_singleton.1 hb
      exact ⟨fun _ => by decide, fun h => absurd h (by decide)⟩
    · cases hb
  header_bound := by
    intro loop d ptr initial next b hloop hd hb _ k hk
    obtain rfl := mem_singleton.1 hloop
    simp only [shiftedLoop] at hd hb
    split at hd <;> cases hd
    · obtain rfl := mem_singleton.1 hb
      refine ⟨fun _ => ?_, fun h => absurd h (by decide)⟩
      revert k
      decide
    · cases hb

theorem recorded_strict_shifted :
    StrictBound 1 (shiftedExecution.value 2) (shiftedExecution.value 1) := by
  have hb : BoundsSound shiftedExecution (invariantBounds lineDominance []) := by
    rintro _ _ _ _ - ⟨⟩
    exact ⟨Int64.le_refl _, Int64.le_refl _⟩
  exact recorded_strict (b := ⟨10, .kLT, 2, 1, true, false⟩) hb (.inr rfl)
    (x := (⟨2, 1, .const 1, .const 1, 1, rfl, rfl⟩ : LinearRecord shiftedLoop)) rfl rfl rfl rfl
    (n := 3) (.inl ⟨show (4 : Int64) < 5 by decide, rfl⟩) nofun

theorem shiftedExecution_noWrapAround : shiftedExecution.NoWrapAround 3 where
  start := by
    intro loop d ptr initial next ptr' initial' next' off hl _ hd hc ho
    obtain rfl := mem_singleton.1 hl
    cases hc
    simp only [shiftedLoop] at hd
    split at hd <;> cases hd <;> cases ho <;> rfl
  small := by
    refine ⟨1, by decide, by decide, fun {loop d x} hl _ hx => ?_⟩
    obtain rfl := mem_singleton.1 hl
    cases hx with
    | invariant hd | initial hd =>
      simp only [shiftedLoop] at hd
      split at hd <;> cases hd <;> exact ⟨by decide, by decide⟩
    | start _ hc =>
      cases hc
      exact ⟨by decide, by decide⟩
    | limit _ hc hb =>
      cases hc
      obtain rfl := mem_singleton.1 hb
      exact ⟨by decide, by decide⟩

def wrapOuter : LoopInfo where
  id := 0
  header := 10
  induction
    | 0 => some (.linear 0 (.const (Int64.maxValue - 5)) (.const (-1)))
    | _ => none
  bounds
    | 0 => [⟨10, .const (-1)⟩]
    | _ => []
  control := some (.linear 0 (.const (Int64.maxValue - 5)) (.const (-1)))
  control_bound := by
    intro c hc
    cases hc
    exact ⟨0, 0, _, _, _, rfl, rfl, mem_singleton.2 rfl, rfl⟩

def wrapInner : LoopInfo where
  id := 1
  header := 20
  induction
    | 1 => some (.invariant ⟨0, 1, some 1, .inr nofun⟩)
    | 2 => some (.linear 1 ⟨10, 1, some 0, .inr nofun⟩ (.const 1))
    | 3 => some (.linear 2 ⟨0, 1, some 0, .inr nofun⟩ (.const 1))
    | _ => none
  bounds
    | 1 => [⟨20, ⟨0, 1, some 1, .inr nofun⟩⟩]
    | _ => []
  control := some (.linear 1 ⟨10, 1, some 0, .inr nofun⟩ (.const 1))
  control_bound := by
    intro c hc
    cases hc
    exact ⟨2, 1, _, _, _, rfl, rfl, mem_singleton.2 rfl, rfl⟩

/-- The first iteration of both loops, with a list of length 5. -/
def wrapExecution : Execution lineDominance [wrapInner, wrapOuter] 30 where
  value
    | 0 => Int64.maxValue - 5
    | 1 => 5
    | 2 => Int64.minValue + 4
    | 3 => Int64.maxValue - 5
    | _ => 0
  iteration _ := 0
  length_nonneg := by
    intro d hd
    obtain rfl : d = 1 := by simpa [lineDominance] using hd
    decide
  induction := by
    intro loop d x hloop hd
    simp only [mem_cons, not_mem_nil, or_false] at hloop
    rcases hloop with rfl | rfl
    · simp only [wrapInner] at hd
      split at hd <;> cases hd <;> rfl
    · simp only [wrapOuter] at hd
      split at hd <;> cases hd
      rfl
  bound := by
    intro loop d ptr initial next b hloop hd hb _
    simp only [mem_cons, not_mem_nil, or_false] at hloop
    rcases hloop with rfl | rfl
    · simp only [wrapInner] at hd hb
      split at hd <;> cases hd
      · obtain rfl := mem_singleton.1 hb
        exact ⟨fun _ => by decide, fun h => absurd h (by decide)⟩
      · cases hb
    · simp only [wrapOuter] at hd hb
      split at hd <;> cases hd
      obtain rfl := mem_singleton.1 hb
      exact ⟨fun h => absurd h (by decide), fun _ => by decide⟩
  header_bound := by
    intro loop d ptr initial next b _ _ _ _ k hk
    exact absurd hk (Nat.not_lt_zero k)

end Proof

end Backend
