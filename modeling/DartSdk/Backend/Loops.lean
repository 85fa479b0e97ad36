import DartSdk.Backend.RangeAnalysis

/-!
# Induction variables and bounds checks in loops

`runtime/vm/compiler/backend/loops.{h,cc}`: the induction records of a loop nest, the strict bounds
that `ClassifyControl` records on them, `CanComputeBounds` and `LoopInfo::IsInRange`.

Records hold 64-bit values, so both the program's arithmetic and the analysis' own is on `Int64`
and wraps around. A loop is given with the loops around it, from the inside out (`outer()`). The
memoization of `CanComputeBounds`, which repeats earlier answers, is left out.
-/

namespace Backend

/-- An instruction of the flow graph. -/
abbrev InstrId := Nat

/-- What the analysis asks the flow graph: `Definition::IsArrayLength` and
`Instruction::IsDominatedBy`. -/
structure Dominance where
  isArrayLength : DefId → Bool
  isDominatedBy : InstrId → InstrId → Bool
  trans : ∀ {p q r}, isDominatedBy p q = true → isDominatedBy q r = true →
    isDominatedBy p r = true

/-! ## Induction records -/

/-- The record `offset + mult * def` of a loop invariant. -/
structure Invariant where
  offset : Int64
  mult : Int64
  defn : Option DefId
  defn_of_mult : mult = 0 ∨ defn ≠ none
  deriving DecidableEq

namespace Invariant

/-- The record of a constant. -/
def const (c : Int64) : Invariant := ⟨c, 0, none, .inl rfl⟩

/-- `IsConstant(x, &c)`. -/
def constantValue (x : Invariant) : Option Int64 := if x.mult = 0 then some x.offset else none

def isEqual (x y : Invariant) : Bool :=
  x.offset == y.offset && x.mult == y.mult && (x.mult == 0 || x.defn == y.defn)

/-- `CanComputeDifferenceWith`. -/
def differenceWith (x y : Invariant) : Option Int64 :=
  if x.defn = y.defn ∧ x.mult = y.mult then some (y.offset - x.offset) else none

/-- `Add(x, c)` for a constant `c` (`Sub(x, c)` adds `-c`). -/
def addConstant (x : Invariant) (c : Int64) : Invariant := { x with offset := x.offset + c }

/-- An invariant of the form `a.length + C`. -/
def isArrayLength (g : Dominance) (x : Invariant) : Bool :=
  x.mult == 1 && x.defn.any g.isArrayLength

end Invariant

/-- `InductionVar`. A linear record has an address, by which its loop keeps its bounds. -/
inductive InductionVar
  | invariant (x : Invariant)
  | linear (ptr : Nat) (initial next : Invariant)
  | wrapAround (initial : Invariant) (next : InductionVar)
  | periodic (initial next : Invariant)

namespace InductionVar

def canComputeDifferenceWith : InductionVar → InductionVar → Option Int64
  | invariant x, invariant y => x.differenceWith y
  | linear _ initial next, linear _ initial' next' =>
    if next.isEqual next' then initial.differenceWith initial' else none
  | _, _ => none

end InductionVar

/-! ## Arithmetic on induction variables -/

namespace Invariant

/-- `Add` or `Sub` of two invariants: only for same or just one instruction. With nothing else on
the left, `op 0` is the identity or `NegWithWrapAround`. -/
def combine (op : Int64 → Int64 → Int64) (h : op 0 0 = 0) (x y : Invariant) : Option Invariant :=
  if hd : x.defn = y.defn then
    some ⟨op x.offset y.offset, op x.mult y.mult, x.defn, by
      rcases x.defn_of_mult with hx | hx
      · rcases y.defn_of_mult with hy | hy
        · exact .inl (by rw [hx, hy, h])
        · exact .inr (hd ▸ hy)
      · exact .inr hx⟩
  else if y.mult = 0 then some { x with offset := op x.offset y.offset }
  else if x.mult = 0 then
    some ⟨op x.offset y.offset, op 0 y.mult, y.defn,
      y.defn_of_mult.imp_left fun hy => by rw [hy, h]⟩
  else none

def add : Invariant → Invariant → Option Invariant := combine (· + ·) rfl

def sub : Invariant → Invariant → Option Invariant := combine (· - ·) rfl

/-- `Mul` by a constant. -/
def mul (y : Invariant) (c : Int64) : Invariant :=
  ⟨c * y.offset, c * y.mult, y.defn, y.defn_of_mult.imp_left fun h => by rw [h, Int64.mul_zero]⟩

end Invariant

namespace InductionVar

/-- The record of the same kind with `f` applied to its invariants, and `step` to the stride of a
linear one. The new linear record, of which there is at most one, gets the address `ptr`. -/
def map (f step : Invariant → Option Invariant) (ptr : Nat) : InductionVar → Option InductionVar
  | invariant x => (f x).map invariant
  | linear _ initial next => do return linear ptr (← f initial) (← step next)
  | wrapAround initial next => do return wrapAround (← f initial) (← next.map f step ptr)
  | periodic initial next => do return periodic (← f initial) (← f next)

/-- `InductionVarAnalysis::Add`. -/
def add (ptr : Nat) : InductionVar → InductionVar → Option InductionVar
  | invariant x, y => y.map x.add some ptr
  | x, invariant y => x.map (·.add y) some ptr
  | linear _ initial next, linear _ initial' next' => do
    return linear ptr (← initial.add initial') (← next.add next')
  | _, _ => none

/-- `InductionVarAnalysis::Sub`. -/
def sub (ptr : Nat) : InductionVar → InductionVar → Option InductionVar
  | invariant x, y => y.map x.sub (Invariant.const 0).sub ptr
  | x, invariant y => x.map (·.sub y) some ptr
  | linear _ initial next, linear _ initial' next' => do
    return linear ptr (← initial.sub initial') (← next.sub next')
  | _, _ => none

def constantValue : InductionVar → Option Int64
  | invariant x => x.constantValue
  | _ => none

/-- `InductionVarAnalysis::Mul`. -/
def mul (ptr : Nat) (x y : InductionVar) : Option InductionVar := do
  -- Swap constant left.
  let (x, y) := if x.constantValue.isSome then (x, y) else (y, x)
  let c ← x.constantValue
  y.map (fun z => some (z.mul c)) (fun z => some (z.mul c)) ptr

end InductionVar

/-- A strict (exclusive) upper or lower bound on unit stride linear induction. -/
structure Bound where
  branch : InstrId
  limit : Invariant

/-- `LoopInfo`. The control induction is a linear record that the branch at the end of the header
bounds. -/
structure LoopInfo where
  id : Nat
  header : InstrId
  induction : DefId → Option InductionVar
  bounds : Nat → List Bound
  control : Option InductionVar
  control_bound : ∀ {c}, control = some c → ∃ d ptr initial next b,
    c = .linear ptr initial next ∧ induction d = some c ∧ b ∈ bounds ptr ∧ b.branch = header

/-! ## Bounds -/

/-- Adjusts the range `[lower, upper]` into `[lower + lowerOffset, upper + upperOffset]`. -/
def safelyAdjust (g : Dominance) (lower : Invariant) (lowerOffset : Int64) (upper : Invariant)
    (upperOffset : Int64) : Option (Invariant × Invariant) := do
  let lval ← lower.constantValue
  let l := lval + lowerOffset
  let c := upper.offset + upperOffset
  let success : Bool :=
    match upper.constantValue with
    | some _ => l ≤ c
    | none =>
      upper.isArrayLength g &&
        ((0 ≤ lowerOffset && lval ≤ l) || (lowerOffset < 0 && l < lval)) && c ≤ 0
  if success then
    return (if lowerOffset = 0 then lower else .const l,
      if upperOffset = 0 then upper else upper.addConstant upperOffset)
  else none

/-- The loop over the control bounds in `CanComputeBoundsImpl`: the first one whose branch
dominates the position and whose limit has bounds decides. -/
def controlBounds (g : Dominance) (bounds : InstrId → Invariant → Option (Invariant × Invariant))
    (pos : InstrId) (stride off : Int64) (lmin lmax : Invariant) :
    List Bound → Option (Invariant × Invariant)
  | [] => none
  | b :: bs =>
    if g.isDominatedBy pos b.branch then
      match bounds b.branch b.limit with
      | some (umin, umax) =>
        if 0 < stride then safelyAdjust g lmin 0 umax (-stride - off)
        else safelyAdjust g umin (-stride - off) lmax 0
      | none => controlBounds g bounds pos stride off lmin lmax bs
    else controlBounds g bounds pos stride off lmin lmax bs

/-- `CanComputeBounds` of an induction in the loop `loop`, where `bounds` computes those of an
invariant. -/
def inductionBounds (g : Dominance) (loop : LoopInfo)
    (bounds : InstrId → Invariant → Option (Invariant × Invariant)) (pos : InstrId)
    (x : InductionVar) : Option (Invariant × Invariant) :=
  match x, loop.control with
  | .linear _ initial next, some (.linear ptr initial' next') => do
    let stride ← next.constantValue
    if stride = 1 ∨ stride = -1 then
      let off ← x.canComputeDifferenceWith (.linear ptr initial' next')
      let (lmin, lmax) ← bounds pos initial
      controlBounds g bounds pos stride off lmin lmax (loop.bounds ptr)
    else none
  | _, _ => none

/-- `CanComputeBounds` of an invariant in a loop inside the loops `outer`: its symbolic part is
refined with outward induction. -/
def invariantBounds (g : Dominance) : List LoopInfo → InstrId → Invariant →
    Option (Invariant × Invariant)
  | [], _, x => some (x, x)
  | loop :: outer, pos, x =>
    match x.defn with
    | none => some (x, x)
    | some d =>
      if x.mult = 1 then
        match loop.induction d with
        | some induc =>
          match inductionBounds g loop (invariantBounds g outer) pos induc with
          | some (imin, imax) => safelyAdjust g imin x.offset imax x.offset
          | none => invariantBounds g outer pos x
        | none => invariantBounds g outer pos x
      else some (x, x)

variable (g : Dominance) (loop : LoopInfo) (outer : List LoopInfo)

/-- `InductionVar::CanComputeBounds` in `loop` inside `outer`. -/
def canComputeBounds (pos : InstrId) : InductionVar → Option (Invariant × Invariant)
  | .invariant x => invariantBounds g outer pos x
  | x => inductionBounds g loop (invariantBounds g outer) pos x

/-! ## Index checks -/

/-- The common case of `IsInRange`: a simple induction directly bounded by the length. -/
def isDirectlyBounded (pos : InstrId) (induc len : InductionVar) : Bool :=
  match induc with
  | .linear ptr initial next =>
    next.constantValue == some 1 && initial.constantValue.any (fun val => 0 ≤ val) &&
      (loop.bounds ptr).any fun bound => g.isDominatedBy pos bound.branch &&
        (len.canComputeDifferenceWith (.invariant bound.limit)).any fun diff => diff ≤ 0
  | _ => false

/-- `LoopInfo::IsInRange` on the original definitions of index and length. -/
def isInRange (pos : InstrId) (index length : DefId) : Bool :=
  match loop.induction index, loop.induction length with
  | some induc, some len =>
    isDirectlyBounded g loop pos induc len ||
      match canComputeBounds g loop outer pos induc with
      | some (min, max) =>
        min.constantValue.any (fun val => 0 ≤ val) &&
          (len.canComputeDifferenceWith (.invariant max)).any fun diff => diff < 0
      | none => false
  | _, _ => false

/-! ## Loop control -/

/-- The kinds of a `ComparisonInstr`. -/
inductive Comparison
  | kEQ
  | kNE
  | kLT
  | kGT
  | kLTE
  | kGTE
  deriving DecidableEq, Repr

namespace Comparison

/-- `Token::NegateComparison`. -/
def negate : Comparison → Comparison
  | kEQ => kNE
  | kNE => kEQ
  | kLT => kGTE
  | kGT => kLTE
  | kLTE => kGT
  | kGTE => kLT

/-- `Token::FlipComparison`. -/
def flip : Comparison → Comparison
  | kEQ => kEQ
  | kNE => kNE
  | kLT => kGT
  | kGT => kLT
  | kLTE => kGTE
  | kGTE => kLTE

end Comparison

/-- A branch of the loop on a comparison of two values, and which of its successors the loop
contains. -/
structure Branch where
  id : InstrId
  cmp : Comparison
  left : DefId
  right : DefId
  containsTrue : Bool
  containsFalse : Bool

/-- The condition of a loop exit, in "loop while true" form. -/
def Branch.loopWhile (b : Branch) : Option Comparison :=
  if b.containsTrue && !b.containsFalse then some b.cmp
  else if !b.containsTrue && b.containsFalse then some b.cmp.negate
  else none

/-- A linear record with constant stride that a loop holds. -/
structure LinearRecord (loop : LoopInfo) where
  defn : DefId
  ptr : Nat
  initial : Invariant
  next : Invariant
  stride : Int64
  found : loop.induction defn = some (.linear ptr initial next)
  stride_eq : next.constantValue = some stride

def LoopInfo.linear (loop : LoopInfo) (d : DefId) : Option (LinearRecord loop) :=
  match hd : loop.induction d with
  | some (.linear ptr initial next) =>
    match hs : next.constantValue with
    | some stride => some ⟨d, ptr, initial, next, stride, hd, hs⟩
    | none => none
  | _ => none

def LoopInfo.invariant (loop : LoopInfo) (d : DefId) : Option Invariant :=
  match loop.induction d with
  | some (.invariant x) => some x
  | _ => none

/-- The comparison such that the induction appears left. -/
def LoopInfo.orient (b : Branch) (cmp : Comparison) :
    Option (LinearRecord loop × Invariant × Comparison) :=
  match loop.linear b.left, loop.invariant b.right with
  | some x, some y => some (x, y, cmp)
  | _, _ =>
    match loop.linear b.right, loop.invariant b.left with
    | some x, some y => some (x, y, cmp.flip)
    | _, _ => none

/-- Whether a non-strict (inclusive) bound on a unit stride linear induction can be made strict. -/
def canBeMadeExclusive (x : Invariant) (branch : InstrId) (isLower : Bool) : Bool :=
  match invariantBounds g outer branch x with
  | none => false
  | some (min, max) =>
    if isLower then min.constantValue.any (fun last => Int64.minValue < last)
    else
      match max.constantValue with
      | some last => last < Int64.maxValue
      | none => max.isArrayLength g && max.offset < 0

/-- The strict bound that a looping condition gives. -/
def strictLimit (branch : InstrId) (stride : Int64)
    (initial y : Invariant) : Comparison → Option Invariant
  | .kLT => if stride = 1 then some y else none
  | .kGT => if stride = -1 then some y else none
  | .kLTE =>
    if stride = 1 ∧ canBeMadeExclusive g outer y branch false = true then some (y.addConstant 1)
    else none
  | .kGTE =>
    if stride = -1 ∧ canBeMadeExclusive g outer y branch true = true then
      some (y.addConstant (-1))
    else none
  | .kNE =>
    match initial.constantValue, y.constantValue with
    | some start, some last =>
      if (stride = 1 ∧ start < last) ∨ (stride = -1 ∧ last < start) then some y else none
    | _, _ => none
  | .kEQ => none

/-- Records a bound on an induction, and the control induction if the branch ends the header. -/
def LoopInfo.addBound (x : LinearRecord loop) (b : Bound) : LoopInfo where
  id := loop.id
  header := loop.header
  induction := loop.induction
  bounds := fun ptr => if ptr = x.ptr then loop.bounds ptr ++ [b] else loop.bounds ptr
  control := if b.branch = loop.header then some (.linear x.ptr x.initial x.next) else loop.control
  control_bound := by
    intro c hc
    split at hc
    · cases hc
      exact ⟨x.defn, x.ptr, x.initial, x.next, b, rfl, x.found, by simp, ‹_›⟩
    obtain ⟨d, ptr, initial, next, b', hlin, hd, hb, hh⟩ := loop.control_bound hc
    refine ⟨d, ptr, initial, next, b', hlin, hd, ?_, hh⟩
    split
    · exact List.mem_append_left _ hb
    · exact hb

/-- `ClassifyControl` on one branch. -/
def LoopInfo.classifyBranch (loop : LoopInfo) (b : Branch) : LoopInfo :=
  match b.loopWhile.bind (loop.orient b) with
  | none => loop
  | some (x, y, cmp) =>
    match strictLimit g outer b.id x.stride x.initial y cmp with
    | none => loop
    | some limit => loop.addBound x ⟨b.id, limit⟩

/-- `InductionVarAnalysis::ClassifyControl`. -/
def LoopInfo.classifyControl (loop : LoopInfo) (branches : List Branch) : LoopInfo :=
  branches.foldl (LoopInfo.classifyBranch g outer) loop

end Backend
