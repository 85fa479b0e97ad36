import DartSdk.Backend.RangeArithmetic

/-!
# Joins and widening of ranges

`JoinMin`, `JoinMax`, `Join`, `WidenMin`, `WidenMax`, `NarrowMin`, `NarrowMax` and
`RangeAnalysis::InferRange` of `runtime/vm/compiler/backend/range_analysis.cc`. The mirrored pairs
`WidenMin`/`WidenMax` and `NarrowMin`/`NarrowMax` are one definition over the `Side`. `JoinMin` and
`JoinMax` make their tests in a different order and are two.
-/

namespace Backend

open RangeBoundary

namespace RangeBoundary

/-- `Overflowed`, which asserts a constant or an infinity. -/
def overflowed (t : Target) (size : RangeSize) : RangeBoundary → Option Bool
  | constant c => some (constant c != (constant c).clamp t size)
  | negativeInfinity => some true
  | positiveInfinity => some true
  | _ => none

/-- `IsMinimumOrBelow` or `IsMaximumOrAbove`. -/
def isLimitOrBeyond (t : Target) (size : RangeSize) : Side → RangeBoundary → Bool
  | .lower, negativeInfinity => true
  | .lower, constant c => c ≤ limit t .lower size
  | .upper, positiveInfinity => true
  | .upper, constant c => c ≥ limit t .upper size
  | _, _ => false

end RangeBoundary

/-- `Range::IsUnknown`. A null pointer is `none`. -/
def Range.isUnknown : Option Range → Bool
  | none => true
  | some r => r.min == unknown

namespace FlowGraph

variable (g : FlowGraph) (n : Nat)

/-- `RangeBoundary::Equals`. -/
def equals : RangeBoundary → RangeBoundary → Option Bool
  | constant a, constant b => some (a == b)
  | symbol s offs, symbol s' offs' =>
    if offs = offs' then g.dependOnSameSymbol n (symbol s offs) (symbol s' offs') else some false
  | a, b => some (a == b)

/-- `LowerBound(size)` or `UpperBound(size)`. -/
def boundOn (side : Side) (b : RangeBoundary) (size : RangeSize) : Option Int := do
  ((← g.constantBound side n b).clamp g.target size).constantValue

/-! ## Joins -/

/-- The loop of `CanonicalizeForComparison`. The inner option is `none` when it returns false. -/
def canonicalizeLoopForComparison (side : Side) :
    Nat → RangeBoundary → RangeBoundary → Option (Option (RangeBoundary × RangeBoundary))
  | 0, _, _ => none
  | k + 1, a, b => do
    if ← g.dependOnSameSymbol n a b then return some (a, b)
    match ← g.canonicalizeOn side n a with
    | some a => canonicalizeLoopForComparison side k a b
    | none =>
      match ← g.canonicalizeOn side n b with
      | some b => canonicalizeLoopForComparison side k a b
      | none => return none

variable (side : Side) (a b : RangeBoundary)

/-- `CanonicalizeForComparison`. -/
def canonicalizeForComparison : Option (Option (RangeBoundary × RangeBoundary)) :=
  if !a.isSymbol || !b.isSymbol then some none
  else g.canonicalizeLoopForComparison n side n a b

/-- `RangeBoundary::JoinMin`. -/
def joinMin (size : RangeSize) : Option RangeBoundary := do
  if ← g.equals n a b then return b
  match ← g.canonicalizeForComparison n .lower a b with
  | some (a, b) => return if a.offset ≤ b.offset then a else b
  | none =>
    let infA ← g.boundOn n .lower a size
    let infB ← g.boundOn n .lower b size
    let supA ← g.boundOn n .upper a size
    let supB ← g.boundOn n .upper b size
    let overflowedA ← (← g.lowerBound n a).overflowed g.target size
    let overflowedB ← (← g.lowerBound n b).overflowed g.target size
    if supA ≤ infB && !overflowedA then return a
    else if supB ≤ infA && !overflowedB then return b
    else return constant (min infA infB)

/-- `RangeBoundary::JoinMax`. -/
def joinMax (size : RangeSize) : Option RangeBoundary := do
  if ← g.equals n a b then return b
  match ← g.canonicalizeForComparison n .upper a b with
  | some (a, b) => return if a.offset ≥ b.offset then a else b
  | none =>
    let infA ← g.boundOn n .lower a size
    let infB ← g.boundOn n .lower b size
    let supA ← g.boundOn n .upper a size
    let supB ← g.boundOn n .upper b size
    let overflowedA ← (← g.upperBound n a).overflowed g.target size
    let overflowedB ← (← g.upperBound n b).overflowed g.target size
    if supA ≤ infB && !overflowedB then return b
    else if supB ≤ infA && !overflowedA then return a
    else return constant (max supA supB)

/-- `DependsOnSymbol`. -/
def dependsOnSymbol (a : RangeBoundary) (s : DefId) : Option Bool :=
  match a with
  | symbol s' _ => (· == s) <$> g.unwrapConstraint n s'
  | _ => some false

/-- The test in `Join`: the range depends on the definition as a symbol. -/
def dependsOn (range : Range) (defn : DefId) : Option Bool := do
  let unwrapped ← g.unwrapConstraint n defn
  return (← g.dependsOnSymbol n range.min unwrapped) || (← g.dependsOnSymbol n range.max unwrapped)

/-- `Join` of two ranges that are known. -/
def joinRanges (range other : Range) (size : RangeSize) : Option Range := do
  let infRange ← g.boundOn n .lower range.min size
  let infOther ← g.boundOn n .lower other.min size
  let supRange ← g.boundOn n .upper range.max size
  let supOther ← g.boundOn n .upper other.max size
  if supRange ≤ infOther then return Range.new range.min other.max
  else if supOther ≤ infRange then return Range.new other.min range.max
  else
    let min ← g.joinMin n range.min other.min size
    let max ← g.joinMax n range.max other.max size
    return Range.new min max

/-- `Join`. A range that depends on the definition as a symbol `S` is joined with `[S, S]`. -/
def join (range : Range) (defn : DefId) (defnRange : Option Range) (size : RangeSize) :
    Option Range :=
  match defnRange with
  | none => some range
  | some defnRange =>
    if Range.isUnknown (some defnRange) then some range
    else if Range.isUnknown (some range) then some defnRange
    else do
      if ← g.dependsOn n range defn then
        g.joinRanges n range (Range.new (g.fromDefinition defn 0) (g.fromDefinition defn 0)) size
      else g.joinRanges n range defnRange size

/-! ## Widening -/

/-- `WidenMin` or `WidenMax`. -/
def widenOn (range newRange : Range) (size : RangeSize) : Option RangeBoundary := do
  let b := range.boundary side
  let new := newRange.boundary side
  let toLimit := constant (limit g.target side size)
  let byConstants : Option RangeBoundary := do
    let c ← g.boundOn n side b size
    let c' ← g.boundOn n side new size
    return if side.Bounds c c' then constant c else toLimit
  if b.isSymbol then
    if ← (← g.constantBound side n b).overflowed g.target size then return toLimit
    else if ← g.dependOnSameSymbol n b new then
      return if side.Bounds b.offset new.offset then b else toLimit
    else if side.Bounds (← g.boundOn n side.opposite b size) (← g.boundOn n side new size) then
      return b
    else byConstants
  else byConstants

/-- `NarrowMin` or `NarrowMax`. -/
def narrowOn (range newRange : Range) (size : RangeSize) : Option RangeBoundary := do
  let b := range.boundary side
  let new := newRange.boundary side
  let c ← g.boundOn n side b size
  let c' ← g.boundOn n side new size
  if ¬ side.Bounds c c' then return b
  return if isLimitOrBeyond g.target size side b then new else b

/-! ## Inference -/

/-- `Range::Equals`. -/
def rangeEquals (r : Range) : Option Range → Option Bool
  | none => some (r.min == unknown)
  | some other => do return (← g.equals n r.min other.min) && (← g.equals n r.max other.max)

/-- How a new range of a phi is combined with its range. -/
inductive JoinOperator
  | NONE
  | WIDEN
  | NARROW
  deriving DecidableEq, Repr

/-- The new range of a phi of a size. -/
def combine (op : JoinOperator) (size : RangeSize) (range inferred : Range) : Option Range :=
  match op with
  | .NONE => some inferred
  | .WIDEN => do
    let min ← g.widenOn n .lower range inferred size
    let max ← g.widenOn n .upper range inferred size
    return Range.new min max
  | .NARROW => do
    let min ← g.narrowOn n .lower range inferred size
    let max ← g.narrowOn n .upper range inferred size
    return Range.new min max

/-- `RangeAnalysis::InferRange`: the range of the definition after it, given the range that its
`InferRange` computes, and whether it has changed. `phiSize` is `RangeSizeForPhi` of a phi. -/
def inferRange (op : JoinOperator) (phiSize : Option RangeSize) (range : Option Range)
    (inferred : Range) : Option (Option Range × Bool) := do
  if Range.isUnknown (some inferred) then return (range, false)
  let new ← match phiSize, range with
    | some size, some r => if r.min = unknown then some inferred else g.combine n op size r inferred
    | _, _ => some inferred
  if !(← g.rangeEquals n new range) then return (some new, true)
  return (range, false)

end FlowGraph

end Backend
