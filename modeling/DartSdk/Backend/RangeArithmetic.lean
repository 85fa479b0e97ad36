import DartSdk.Backend.RangeAnalysis
import Mathlib.Data.Int.Bitwise

/-!
# Arithmetic on ranges

`Range::BinaryOp` of `runtime/vm/compiler/backend/range_analysis.cc` with what it calls, and the
operations of `runtime/platform/utils.h` on an `int64_t` that these use. An infinite boundary means
that a value may wrap around; the constructor of a range then takes the full 64-bit range.
`none` is a lack of fuel or a failed `ASSERT`.
-/

namespace Utils

def absWithSaturation (x : Int) : Int :=
  if x < 0 then if x = kMinInt64 then kMaxInt64 else -x else x

/-- Halves the bits that are searched: the higher part, if it is not zero. -/
def highestBitStep (s : Nat × Nat) (shift : Nat) : Nat × Nat :=
  if s.1 >>> shift ≠ 0 then (s.1 >>> shift, s.2 + shift) else s

/-- `HighestBit`. -/
def highestBit (v : Int) : Nat :=
  let (x, r) := [32, 16, 8, 4, 2].foldl highestBitStep ((if v > 0 then v else -v).toNat, 0)
  if x > 1 then r + 1 else r

/-- `BitLength`. The bits of a negative number are flipped. -/
def bitLength (value : Int) : Nat :=
  let value := if value < 0 then -value - 1 else value
  if value = 0 then 0 else highestBit value + 1

/-- `IsInt` of a signed type of 64 bits. -/
def isIntN (n : Nat) (value : Int) : Bool :=
  n ≥ 64 || (-2 ^ (n - 1) ≤ value && value < 2 ^ (n - 1))

end Utils

namespace Backend

/-- `RangeBoundary::RangeSize`. -/
inductive RangeSize
  | smi
  | int16
  | int32
  | int64
  deriving DecidableEq, Repr

namespace RangeBoundary

/-- `MinConstant` or `MaxConstant`. -/
def limit (t : Target) : Side → RangeSize → Int
  | .lower, .smi => t.kSmiMin
  | .lower, .int16 => -2 ^ 15
  | .lower, .int32 => -2 ^ 31
  | .lower, .int64 => kMinInt64
  | .upper, .smi => t.kSmiMax
  | .upper, .int16 => 2 ^ 15 - 1
  | .upper, .int32 => 2 ^ 31 - 1
  | .upper, .int64 => kMaxInt64

/-- `Clamp`. -/
def clamp (t : Target) (size : RangeSize) : RangeBoundary → RangeBoundary
  | negativeInfinity => constant (limit t .lower size)
  | positiveInfinity => constant (limit t .upper size)
  | constant c =>
    if c ≤ limit t .lower size then constant (limit t .lower size)
    else if c ≥ limit t .upper size then constant (limit t .upper size)
    else constant c
  | b => b

/-- `Sub` of two constants. -/
def sub (a b overflow : RangeBoundary) : Option RangeBoundary :=
  if a.isInfinity || b.isInfinity then some overflow
  else do
    let x ← a.constantValue
    let y ← b.constantValue
    if Utils.willSubOverflow x y then return overflow
    return constant (x - y)

/-- `Shl`. -/
def shl (value shiftCount : Int) (overflow : RangeBoundary) : RangeBoundary :=
  if value = 0 then constant 0
  else if shiftCount = 0 ∨ (64 - shiftCount > 0 ∧ Utils.isIntN (64 - shiftCount).toNat value) then
    constant (value * 2 ^ shiftCount.toNat)
  else overflow

/-- `Shr`. -/
def shr (value shiftCount : Int) : RangeBoundary :=
  if shiftCount ≤ 63 then constant (value / 2 ^ shiftCount.toNat)
  else if value ≥ 0 then constant 0
  else constant (-1)

end RangeBoundary

open RangeBoundary

namespace Range

/-- The constructor: infinite boundaries are replaced by the full 64-bit range. -/
def new (min max : RangeBoundary) : Range :=
  if h : min.isInfinity = false ∧ max.isInfinity = false then ⟨min, max, h⟩
  else ⟨constant kMinInt64, constant kMaxInt64, rfl, rfl⟩

end Range

namespace FlowGraph

variable (g : FlowGraph) (n : Nat)

/-- `SymbolicAdd` of a symbol and a constant. It is `none` if it fails. -/
def symbolicAddConstant (s : DefId) (offset c : Int) : Option RangeBoundary :=
  if Utils.willAddOverflow offset c then none
  else if !isValidOffsetForSymbolicRangeBoundary g.target (offset + c) then none
  else some (g.fromDefinition s (offset + c))

/-- `SymbolicAdd`. -/
def symbolicAdd : RangeBoundary → RangeBoundary → Option RangeBoundary
  | symbol s offset, constant c => g.symbolicAddConstant s offset c
  | constant c, symbol s offset => g.symbolicAddConstant s offset c
  | _, _ => none

/-- `SymbolicSub`. -/
def symbolicSub : RangeBoundary → RangeBoundary → Option RangeBoundary
  | symbol s offset, constant c =>
    if Utils.willSubOverflow offset c then none
    else if !isValidOffsetForSymbolicRangeBoundary g.target (offset - c) then none
    else some (g.fromDefinition s (offset - c))
  | _, _ => none

/-! ## Constant boundaries of a range -/

variable (r : Range)

/-- `Range::ConstantMin(range).ConstantValue()`. -/
def constantMin : Option Int := do
  ((← g.lowerBound n r.min).clamp g.target .int64).constantValue

/-- `Range::ConstantMax(range).ConstantValue()`. -/
def constantMax : Option Int := do
  ((← g.upperBound n r.max).clamp g.target .int64).constantValue

def onlyLessThanOrEqualTo (val : Int) : Option Bool := do
  match ← g.upperBound n r.max with
  | positiveInfinity => return false
  | b => return (← b.constantValue) ≤ val

def onlyGreaterThanOrEqualTo (val : Int) : Option Bool := do
  match ← g.lowerBound n r.min with
  | negativeInfinity => return false
  | b => return (← b.constantValue) ≥ val

def isPositive : Option Bool := g.onlyGreaterThanOrEqualTo n r 0

def onlyPositiveOrZero (a b : Range) : Option Bool := do
  return (← g.onlyGreaterThanOrEqualTo n a 0) && (← g.onlyGreaterThanOrEqualTo n b 0)

def onlyNegativeOrZero (a b : Range) : Option Bool := do
  return (← g.onlyLessThanOrEqualTo n a 0) && (← g.onlyLessThanOrEqualTo n b 0)

def constantAbsMax : Option Int := do
  let absMin := Utils.absWithSaturation (← g.constantMin n r)
  let absMax := Utils.absWithSaturation (← g.constantMax n r)
  return max absMin absMax

def constantAbsMin : Option Int := do
  let absMin := Utils.absWithSaturation (← g.constantMin n r)
  let absMax := Utils.absWithSaturation (← g.constantMax n r)
  return min absMin absMax

/-! ## The operations -/

/-- What an operation stores in `result_min` and `result_max`. -/
abbrev Boundaries := RangeBoundary × RangeBoundary

/-- The counts of a shift. A negative count throws. -/
def shiftCounts (right : Range) : Option (Int × Int) := do
  let rightMax ← g.constantMax n right
  let rightMin ← g.constantMin n right
  return (max rightMin 0, max rightMax 0)

variable (left right : Range)

def shlRange : Option Boundaries := do
  let leftMax ← g.constantMax n left
  let leftMin ← g.constantMin n left
  let (rightMin, rightMax) ← g.shiftCounts n right
  return (
    shl leftMin (if leftMin > 0 then rightMin else rightMax)
      (if leftMin > 0 then positiveInfinity else negativeInfinity),
    shl leftMax (if leftMax > 0 then rightMax else rightMin)
      (if leftMax > 0 then positiveInfinity else negativeInfinity))

def shrRange : Option Boundaries := do
  let leftMax ← g.constantMax n left
  let leftMin ← g.constantMin n left
  let (rightMin, rightMax) ← g.shiftCounts n right
  return (
    shr leftMin (if leftMin > 0 then rightMax else rightMin),
    shr leftMax (if leftMax > 0 then rightMin else rightMax))

/-- `ConvertRangeToUnsigned`. -/
def convertRangeToUnsigned (a b : Int) : Int × Int :=
  if a < 0 ∧ b ≥ 0 then (0, 2 ^ 64 - 1) else (a % 2 ^ 64, b % 2 ^ 64)

/-- `ConvertRangeToSigned`. -/
def convertRangeToSigned (a b : Int) : Int × Int :=
  if a ≤ kMaxInt64 ∧ b ≥ 2 ^ 63 then (kMinInt64, kMaxInt64)
  else (a.bmod (2 ^ 64), b.bmod (2 ^ 64))

def ushrRange : Option Boundaries := do
  let leftMax ← g.constantMax n left
  let leftMin ← g.constantMin n left
  let (rightMin, rightMax) ← g.shiftCounts n right
  let (unsignedLeftMin, unsignedLeftMax) := convertRangeToUnsigned leftMin leftMax
  let unsignedResultMin := if rightMax ≥ 64 then 0 else unsignedLeftMin / 2 ^ rightMax.toNat
  let unsignedResultMax := if rightMin ≥ 64 then 0 else unsignedLeftMax / 2 ^ rightMin.toNat
  let (resultMin, resultMax) := convertRangeToSigned unsignedResultMin unsignedResultMax
  return (constant resultMin, constant resultMax)

def bitSize : Option Nat := do
  let min ← g.constantMin n r
  let max ← g.constantMax n r
  return Nat.max (Utils.bitLength min) (Utils.bitLength max)

def bitwiseOp : Option Boundaries := do
  let bitsize := Nat.max (← g.bitSize n left) (← g.bitSize n right)
  let positive := (← g.isPositive n left) && (← g.isPositive n right)
  return (constant (if positive then 0 else -2 ^ bitsize), constant (2 ^ bitsize - 1))

def andRange : Option Boundaries := do
  if (← g.constantMin n right) ≥ 0 then return (constant 0, constant (← g.constantMax n right))
  else if (← g.constantMin n left) ≥ 0 then return (constant 0, constant (← g.constantMax n left))
  else g.bitwiseOp n left right

/-- The boundary of the left operand: an array length stands for itself. -/
def leftBoundary (leftLength : Option DefId) (b : RangeBoundary) : RangeBoundary :=
  match leftLength with
  | some d => g.fromDefinition d 0
  | none => b

def addRange (leftLength : Option DefId) : Option Boundaries := do
  let resultMin ← (g.symbolicAdd (g.leftBoundary leftLength left.min) right.min).or do
    (← g.lowerBound n left.min).add (← g.lowerBound n right.min) negativeInfinity
  let resultMax ← (g.symbolicAdd (g.leftBoundary leftLength left.max) right.max).or do
    (← g.upperBound n right.max).add (← g.upperBound n left.max) positiveInfinity
  return (resultMin, resultMax)

def subRange (leftLength : Option DefId) : Option Boundaries := do
  let resultMin ← (g.symbolicSub (g.leftBoundary leftLength left.min) right.max).or do
    (← g.lowerBound n left.min).sub (← g.upperBound n right.max) negativeInfinity
  let resultMax ← (g.symbolicSub (g.leftBoundary leftLength left.max) right.min).or do
    (← g.upperBound n left.max).sub (← g.lowerBound n right.min) positiveInfinity
  return (resultMin, resultMax)

def mulRange : Option Boundaries := do
  let leftMax ← g.constantAbsMax n left
  let rightMax ← g.constantAbsMax n right
  let sameSign := (← g.onlyPositiveOrZero n left right) || (← g.onlyNegativeOrZero n left right)
  if leftMax ≤ -g.target.kSmiMin ∧ rightMax ≤ -g.target.kSmiMin ∧
      (leftMax = 0 ∨ rightMax ≤ kMaxInt64 / leftMax) then
    let mulMax := leftMax * rightMax
    if sameSign then
      let mulMin := (← g.constantAbsMin n left) * (← g.constantAbsMin n right)
      return (constant mulMin, constant mulMax)
    else return (constant (-mulMax), constant mulMax)
  else if sameSign then return (constant 0, positiveInfinity)
  else return (negativeInfinity, positiveInfinity)

def truncDivRange : Option Boundaries := do
  if (← g.onlyGreaterThanOrEqualTo n left 0) && (← g.onlyGreaterThanOrEqualTo n right 1) then
    let leftMax ← g.constantAbsMax n left
    let leftMin ← g.constantAbsMin n left
    let rightMax ← g.constantAbsMax n right
    let rightMin ← g.constantAbsMin n right
    return (constant (leftMin.tdiv rightMax), constant (leftMax.tdiv rightMin))
  else return (negativeInfinity, positiveInfinity)

def modRange (right : Range) : Option Boundaries := do
  let rightMin ← g.constantMin n right
  let rightMax ← g.constantAbsMax n right
  return (constant 0, constant (if rightMin ≠ kMinInt64 then max (rightMax - 1) 0 else kMaxInt64))

/-- `BinaryOp`. The left definition is given if it is an array length. -/
def binaryOp (op : Token) (left right : Range) (leftLength : Option DefId) : Option Range := do
  let (min, max) ← match op with
    | .kADD => g.addRange n left right leftLength
    | .kSUB => g.subRange n left right leftLength
    | .kMUL => g.mulRange n left right
    | .kTRUNCDIV => g.truncDivRange n left right
    | .kMOD => g.modRange n right
    | .kSHL => g.shlRange n left right
    | .kSHR => g.shrRange n left right
    | .kUSHR => g.ushrRange n left right
    | .kBIT_AND => g.andRange n left right
    | .kBIT_OR => g.bitwiseOp n left right
    | .kBIT_XOR => g.bitwiseOp n left right
  return Range.new min max

end FlowGraph

/-! ## The operations on integers -/

/-- The value of a 64-bit operation; none if it throws. -/
def Token.eval : Token → Int → Int → Option Int
  | .kADD, x, y => some ((x + y).bmod (2 ^ 64))
  | .kSUB, x, y => some ((x - y).bmod (2 ^ 64))
  | .kMUL, x, y => some ((x * y).bmod (2 ^ 64))
  | .kTRUNCDIV, x, y => if y = 0 then none else some ((x.tdiv y).bmod (2 ^ 64))
  | .kMOD, x, y => if y = 0 then none else some (x % y)
  | .kBIT_AND, x, y => some (x.land y)
  | .kBIT_OR, x, y => some (x.lor y)
  | .kBIT_XOR, x, y => some (x.xor y)
  | .kSHL, x, y =>
    if y < 0 then none else if y ≥ 64 then some 0 else some ((x * 2 ^ y.toNat).bmod (2 ^ 64))
  | .kSHR, x, y =>
    if y < 0 then none
    else if y ≥ 64 then some (if x ≥ 0 then 0 else -1) else some (x / 2 ^ y.toNat)
  | .kUSHR, x, y =>
    if y < 0 then none
    else if y ≥ 64 then some 0 else some ((x % 2 ^ 64 / 2 ^ y.toNat).bmod (2 ^ 64))

end Backend
