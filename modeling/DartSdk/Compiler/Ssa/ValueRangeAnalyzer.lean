import Mathlib.Data.Int.Bitwise

/-!
# Value range analysis

`pkg/compiler/lib/src/ssa/value_range_analyzer.dart`: symbolic values and ranges, what the analyzer
makes of the ranges of operands, and the decisions it takes for bounds checks and comparisons.
Whether the type of an instruction is an integer type is given to the visitors, as are the ranges of
the operands. The calls of the operators for `+`, `-` and unary `-` among each other are counted,
and `fuel` is a bound for them.
-/

namespace Compiler.Ssa

/-! ## Constants -/

/-- A significand of 53 bits and an exponent, for a number of more bits. A tie goes to even. -/
def round (m : Nat) : Nat × Nat :=
  let e := m.log2 - 52
  let q := m / 2 ^ e
  let r := m % 2 ^ e
  (if 2 ^ (e - 1) < r ∨ r = 2 ^ (e - 1) ∧ q % 2 = 1 then q + 1 else q, e)

/-- Above all finite doubles. -/
@[irreducible]
def doubleLimit : Nat := 2 ^ 1024

/-- `BigInt.toDouble`, of a finite result. -/
def toDouble (i : Int) : Option Int :=
  if i.natAbs < 2 ^ 53 then some i
  else
    let m := (round i.natAbs).1 * 2 ^ (round i.natAbs).2
    if m < doubleLimit then some (i.sign * m) else none

namespace ConstantSystem

/-- The constant is not an `IntConstantValue` when the result is none. -/
def createInt (i : Int) : Option Int := toDouble i

def fold (foldInts : Int → Int → Int) (left right : Int) : Option Int := do
  createInt (foldInts (← createInt left) (← createInt right))

def negate (i : Int) : Option Int := do
  createInt (-(← createInt i))

def bitAnd (left right : Int) : Option Int := do
  let i ← fold Int.land left right
  return i % 2 ^ 32

end ConstantSystem

/-! ## Values -/

/-- A symbolic value. `PositiveValue` is the `instruction` which is positive. -/
inductive Value (Instruction : Type) where
  | int (value : Int)
  | maxInt
  | minInt
  | unknown
  | marker (isLower isPositive : Bool)
  | instruction (i : Instruction) (isPositive : Bool)
  | add (left right : Value Instruction)
  | subtract (left right : Value Instruction)
  | negate (value : Value Instruction)
  deriving DecidableEq, Repr

variable {Instruction : Type}

namespace Value

def isZero : Value Instruction → Bool
  | int value => value == 0
  | _ => false

mutual

def isPositive : Value Instruction → Bool
  | int value => decide (0 ≤ value)
  | maxInt => true
  | minInt => false
  | unknown => false
  | marker _ isPositive => isPositive
  | instruction _ isPositive => isPositive
  | add left right => left.isPositive && right.isPositive
  | subtract left right => left.isPositive && right.isNegative
  | negate value => value.isNegative

def isNegative : Value Instruction → Bool
  | int value => decide (value < 0)
  | maxInt => false
  | minInt => true
  | unknown => false
  | marker _ _ => false
  | instruction _ _ => false
  | add left right => left.isNegative && right.isNegative
  | subtract left right => left.isNegative && right.isPositive
  | negate value => value.isPositive

end

/-- `is IntValue`. -/
def isInt : Value Instruction → Bool
  | int _ => true
  | _ => false

/-- `is VariableValue`. -/
def isVariable : Value Instruction → Bool
  | marker _ _ | instruction _ _ => true
  | _ => false

/-- `value != info.unknownValue && value is! BinaryOperationValue`. -/
def isSimple : Value Instruction → Bool
  | unknown | add _ _ | subtract _ _ => false
  | _ => true

variable [DecidableEq Instruction]

/-- `operator ==`. -/
def equals : Value Instruction → Value Instruction → Bool
  | int value, int value' => value == value'
  | maxInt, maxInt => true
  | minInt, minInt => true
  | unknown, unknown => true
  | marker isLower _, marker isLower' _ => isLower == isLower'
  | instruction i _, instruction i' _ => i == i'
  | add left right, add left' right' =>
    left.equals left' && right.equals right' || left.equals right' && right.equals left'
  | subtract left right, subtract left' right' => left.equals left' && right.equals right'
  | negate value, negate value' => value.equals value'
  | _, _ => false

instance : BEq (Value Instruction) := ⟨equals⟩

/-- The value of a folded constant. -/
def ofConstant : Option Int → Value Instruction
  | some value => int value
  | none => unknown

/-- The unary `-` of an `IntValue`. -/
def negateInt (value : Int) : Value Instruction :=
  if value = 0 then int value else ofConstant (ConstantSystem.negate value)

mutual

/-- The unary `operator -`. -/
def negF : Nat → Value Instruction → Option (Value Instruction)
  | 0, _ => none
  | fuel + 1, this =>
    match this with
    | int value => some (negateInt value)
    | maxInt => some minInt
    | minInt => some maxInt
    | unknown => some unknown
    | marker _ _ | instruction _ _ => some (negate this)
    | add left right => do subF fuel (← negF fuel left) right
    | subtract left right => subF fuel right left
    | negate value => some value

/-- `operator +`. -/
def addF : Nat → Value Instruction → Value Instruction → Option (Value Instruction)
  | 0, _, _ => none
  | fuel + 1, this, other =>
    match this with
    | int value =>
      if other.isZero then some this
      else match other with
      | int value' => some (ofConstant (ConstantSystem.fold (· + ·) value value'))
      | _ => addF fuel other this
    | maxInt => some maxInt
    | minInt => some minInt
    | unknown => some unknown
    | marker _ _ | instruction _ _ =>
      if other.isZero then some this
      else match other with
      | int value =>
        if value < 0 then some (subtract this (negateInt value)) else some (add this other)
      | marker _ _ | instruction _ _ => some (add this other)
      | _ => addF fuel other this
    | add left right =>
      if other.isZero then some this
      else do
        let value ← addF fuel left other
        if value.isSimple then addF fuel value right
        else
          let value ← addF fuel right other
          if value.isSimple then addF fuel left value else return unknown
    | subtract left right =>
      if other.isZero then some this
      else do
        let value ← addF fuel left other
        if value.isSimple then subF fuel value right
        else
          let value ← subF fuel other right
          if value.isSimple then addF fuel left value else return unknown
    | negate value =>
      if other.isZero then some this
      else if other == value then some (int 0)
      else match other with
      | negate value' => subF fuel this value'
      | int i =>
        if i < 0 then some (subtract this (negateInt i)) else some (subtract other value)
      | marker _ _ | instruction _ _ => some (subtract other value)
      | _ => subF fuel other value

/-- The binary `operator -`. -/
def subF : Nat → Value Instruction → Value Instruction → Option (Value Instruction)
  | 0, _, _ => none
  | fuel + 1, this, other =>
    match this with
    | int value =>
      if other.isZero then some this
      else match other with
      | int value' => some (ofConstant (ConstantSystem.fold (· - ·) value value'))
      | _ => do addF fuel (← negF fuel other) this
    | maxInt => some maxInt
    | minInt => some minInt
    | unknown => some unknown
    | marker _ _ | instruction _ _ =>
      if other.isZero then some this
      else if this == other then some (int 0)
      else match other with
      | int value =>
        if value < 0 then some (add this (negateInt value)) else some (subtract this other)
      | marker _ _ | instruction _ _ => some (subtract this other)
      | _ => do addF fuel (← negF fuel other) this
    | add left right =>
      if other.isZero then some this
      else do
        let value ← subF fuel left other
        if value.isSimple then addF fuel value right
        else
          let value ← subF fuel right other
          if value.isSimple then addF fuel left value else return unknown
    | subtract left right =>
      if other.isZero then some this
      else do
        let value ← subF fuel left other
        if value.isSimple then subF fuel value right
        else
          let value ← addF fuel right other
          if value.isSimple then subF fuel left value else return unknown
    | negate value =>
      if other.isZero then some this
      else match other with
      | int i =>
        if i < 0 then some (subtract (negateInt i) value) else some (subtract this other)
      | marker _ _ | instruction _ _ => some (subtract this other)
      | negate value' => addF fuel this value'
      | _ => do subF fuel (← negF fuel other) value

end

def size : Value Instruction → Nat
  | add left right | subtract left right => left.size + right.size
  | negate value => value.size + 1
  | _ => 1

def fuel (a b : Value Instruction) : Nat := 16 * (a.size + b.size) + 16

instance : Neg (Value Instruction) where
  neg a := (negF (fuel a a) a).getD unknown

instance : Add (Value Instruction) where
  add a b := (addF (fuel a b) a b).getD unknown

instance : Sub (Value Instruction) where
  sub a b := (subF (fuel a b) a b).getD unknown

/-- `operator &`. A failed cast is unknown, too. -/
def and : Value Instruction → Value Instruction → Value Instruction
  | int value, int value' => ofConstant (ConstantSystem.bitAnd value value')
  | _, _ => unknown

variable (this other : Value Instruction)

/-- `min` of `Value`. -/
def symbolicMin : Value Instruction :=
  if this == other then this
  else if other == minInt then other
  else if other == maxInt then this
  else
    let value := this - other
    if value.isPositive then other
    else if value.isNegative then this
    else unknown

/-- `max` of `Value`. -/
def symbolicMax : Value Instruction :=
  if this == other then this
  else if other == minInt then this
  else if other == maxInt then other
  else
    let value := this - other
    if value.isPositive then this
    else if value.isNegative then other
    else unknown

/-- `min` of the classes which are not `IntValue`. -/
def minOther : Value Instruction :=
  match this with
  | maxInt => other
  | minInt => minInt
  | unknown => unknown
  | _ => this.symbolicMin other

def maxOther : Value Instruction :=
  match this with
  | maxInt => maxInt
  | minInt => other
  | unknown => unknown
  | _ => this.symbolicMax other

def min : Value Instruction :=
  match this, other with
  | int value, int value' => if value < value' then this else other
  | int _, _ => other.minOther this
  | _, _ => this.minOther other

def max : Value Instruction :=
  match this, other with
  | int value, int value' => if value < value' then other else this
  | int _, _ => other.maxOther this
  | _, _ => this.maxOther other

def replaceMarkers (this lowerBound upperBound : Value Instruction) : Value Instruction :=
  match this with
  | marker isLower _ => if isLower then lowerBound else upperBound
  | add left right =>
    let newLeft := left.replaceMarkers lowerBound upperBound
    let newRight := right.replaceMarkers lowerBound upperBound
    if left == newLeft && right == newRight then add left right else newLeft + newRight
  | subtract left right =>
    let newLeft := left.replaceMarkers lowerBound upperBound
    let newRight := right.replaceMarkers lowerBound upperBound
    if left == newLeft && right == newRight then subtract left right else newLeft - newRight
  | negate value =>
    let newValue := value.replaceMarkers lowerBound upperBound
    if value == newValue then negate value else -newValue
  | this => this

end Value

/-! ## Ranges -/

structure Range (Instruction : Type) where
  lower : Value Instruction
  upper : Value Instruction
  deriving DecidableEq, Repr

namespace Range

open Value

def unbound : Range Instruction := ⟨minInt, maxInt⟩

variable [DecidableEq Instruction]

def normalize (low up : Value Instruction) : Range Instruction :=
  ⟨if low == unknown then minInt else low, if up == unknown then maxInt else up⟩

variable (this other : Range Instruction)

def union : Range Instruction :=
  normalize (this.lower.min other.lower) (this.upper.max other.upper)

/-- The choice between two bounds that `min` or `max` could not make. -/
def pick (value this other : Value Instruction) : Value Instruction :=
  if value == unknown then
    if this.isInt then this else if other.isInt then other else this
  else value

def intersection : Range Instruction :=
  normalize (pick (this.lower.max other.lower) this.lower other.lower)
    (pick (this.upper.min other.upper) this.upper other.upper)

instance : Add (Range Instruction) where
  add this other := normalize (this.lower + other.lower) (this.upper + other.upper)

instance : Sub (Range Instruction) where
  sub this other := normalize (this.lower - other.upper) (this.upper - other.lower)

instance : Neg (Range Instruction) where
  neg this := normalize (-this.upper) (-this.lower)

def isNegative (this : Range Instruction) : Bool := this.upper.isNegative

def isPositive (this : Range Instruction) : Bool := this.lower.isPositive

def isSingleValue (this : Range Instruction) : Bool := this.lower == this.upper

/-- `operator &`. -/
def and (this other : Range Instruction) : Range Instruction :=
  if this.isSingleValue && other.isSingleValue && this.lower.isInt && other.lower.isInt then
    normalize (this.lower.and other.lower) (this.upper.and other.upper)
  else if this.isPositive && other.isPositive then
    let up := this.upper.min other.upper
    let up :=
      if up == unknown then
        let up := if this.upper.isInt then this.upper else other.upper
        if !up.isInt && this.upper != other.upper then maxInt else up
      else up
    normalize (int 0) up
  else if this.isPositive then normalize (int 0) this.upper
  else if other.isPositive then normalize (int 0) other.upper
  else unbound

def equals : Bool :=
  other.lower == this.lower && other.upper == this.upper

instance : BEq (Range Instruction) := ⟨equals⟩

def replaceMarkers (this : Range Instruction) (lowerBound upperBound : Value Instruction) :
    Range Instruction :=
  let newLower := this.lower.replaceMarkers lowerBound upperBound
  let newUpper := this.upper.replaceMarkers lowerBound upperBound
  if this.lower == newLower && this.upper == newUpper then this else normalize newLower newUpper

/-- `operator <`. -/
def lt : Bool :=
  this.upper != other.lower && this.upper.min other.lower == this.upper

/-- `operator >`. -/
def gt : Bool :=
  this.lower != other.upper && this.lower.max other.upper == this.lower

/-- `operator <=`. -/
def le : Bool := this.upper.min other.lower == this.upper

/-- `operator >=`. -/
def ge : Bool := this.lower.max other.upper == this.lower

end Range

/-! ## The analyzer -/

section

open Value Range

/-- What is known about the type of an instruction. -/
inductive IntegerType where
  | positiveInteger
  | integer
  | other
  deriving DecidableEq, Repr

variable [DecidableEq Instruction]

def visitInstruction (type : IntegerType) (i : Instruction) : Range Instruction :=
  match type with
  | .positiveInteger => Range.normalize (int 0) (instruction i true)
  | .integer => Range.normalize (instruction i false) (instruction i false)
  | .other => unbound

/-- `visitConstant` of an integer constant. -/
def visitConstant (constant : Int) : Range Instruction := Range.normalize (int constant) (int constant)

def visitGetLength (i : Instruction) : Range Instruction :=
  Range.normalize (int 0) (instruction i true)

/-- `visitPhi` of a block that is no loop header. -/
def visitPhi (first : Range Instruction) (others : List (Range Instruction)) : Range Instruction :=
  others.foldl union first

/-- What is known about the types of both operands. -/
inductive OperandTypes where
  | integers
  | numbers
  | other
  deriving DecidableEq, Repr

def handleInvokeModulo (types : OperandTypes) (divisor : Option (Range Instruction)) :
    Range Instruction :=
  match divisor with
  | none => unbound
  | some divisor =>
    match types with
    | .integers =>
      if divisor.isPositive then Range.normalize (int 0) (divisor.upper - int 1)
      else if divisor.isNegative then Range.normalize (int 0) (negate divisor.lower - int 1)
      else unbound
    | .numbers =>
      if divisor.isPositive then Range.normalize (int 0) divisor.upper
      else if divisor.isNegative then Range.normalize (int 0) (negate divisor.lower)
      else unbound
    | .other => unbound

def visitRemainder (isPositiveInteger : Bool) (types : OperandTypes)
    (dividend divisor : Option (Range Instruction)) : Range Instruction :=
  if dividend.any Range.isPositive || isPositiveInteger then
    match divisor with
    | none => unbound
    | some divisor =>
      if divisor.isPositive then
        match types with
        | .integers => Range.normalize (int 0) (divisor.upper - int 1)
        | .numbers => Range.normalize (int 0) divisor.upper
        | .other => unbound
      else unbound
  else unbound

/-- `tryComputeRange` of `visitBitAnd`. -/
def tryComputeRange (range : Range Instruction) : Range Instruction :=
  if range.isPositive then Range.normalize (int 0) range.upper
  else if range.isNegative then Range.normalize range.lower (int 0)
  else unbound

inductive RelationalOperation where
  | less
  | lessEqual
  | greater
  | greaterEqual
  deriving DecidableEq, Repr

namespace RelationalOperation

def negateOperation : RelationalOperation → RelationalOperation
  | less => greaterEqual
  | lessEqual => greater
  | greater => lessEqual
  | greaterEqual => less

def flipOperation : RelationalOperation → RelationalOperation
  | less => greater
  | lessEqual => greaterEqual
  | greater => less
  | greaterEqual => lessEqual

end RelationalOperation

open RelationalOperation

variable (operation : RelationalOperation) (left right : Range Instruction)

def applyRelationalOperation : Bool :=
  match operation with
  | .less => left.lt right
  | .lessEqual => left.le right
  | .greater => left.gt right
  | .greaterEqual => left.ge right

def handleEqualityCheck : Option Bool :=
  if left.isSingleValue && right.isSingleValue && left == right then some true else none

/-- The constant that replaces a comparison of integers. The operation of an `HIdentity` is none. -/
def visitRelational (operation : Option RelationalOperation) (leftRange rightRange : Range Instruction) :
    Option Bool :=
  match operation with
  | none => handleEqualityCheck leftRange rightRange
  | some operation =>
    if applyRelationalOperation operation leftRange rightRange then some true
    else if applyRelationalOperation (negateOperation operation) leftRange rightRange then some false
    else none

def computeConstrainedRange (leftRange rightRange : Range Instruction) : Range Instruction :=
  let range :=
    match operation with
    | .less => Range.normalize minInt (rightRange.upper - int 1)
    | .lessEqual => Range.normalize minInt rightRange.upper
    | .greater => Range.normalize (rightRange.lower + int 1) maxInt
    | .greaterEqual => Range.normalize rightRange.lower maxInt
  range.intersection leftRange

/-- The ranges of the operands of a comparison in the two branches. -/
structure BranchRanges (Instruction : Type) where
  trueLeft : Range Instruction
  trueRight : Range Instruction
  falseLeft : Range Instruction
  falseRight : Range Instruction

/-- `visitConditionalBranch`, with blocks that have no other predecessor. -/
def visitConditionalBranch (leftRange rightRange : Range Instruction) : BranchRanges Instruction :=
  let mirrorOp := flipOperation operation
  let reverse := negateOperation operation
  let reversedMirror := flipOperation reverse
  { trueLeft := computeConstrainedRange operation leftRange rightRange
    trueRight := computeConstrainedRange mirrorOp rightRange leftRange
    falseLeft := computeConstrainedRange reverse leftRange rightRange
    falseRight := computeConstrainedRange reversedMirror rightRange leftRange }

inductive StaticBoundsChecks where
  | alwaysFalse
  | fullCheck
  | alwaysAboveZero
  | alwaysBelowLength
  | alwaysTrue
  deriving DecidableEq, Repr

/-- What becomes of a bounds check. A removed check is `alwaysTrue`. -/
structure BoundsCheck (Instruction : Type) where
  staticChecks : StaticBoundsChecks
  /-- The range of the length after the check, where it is narrower. -/
  lengthRange : Option (Range Instruction)
  /-- The range of the check, and of the index after it. -/
  range : Range Instruction

/-- `maxIndex` and `belowLength` of `visitBoundsCheck`. -/
def belowLength (indexRange lengthRange : Range Instruction) : Bool :=
  let maxIndex := lengthRange.upper - int 1
  maxIndex != maxInt && indexRange.upper.min maxIndex == indexRange.upper ||
    indexRange.lt lengthRange

def visitBoundsCheck (indexRange lengthRange : Range Instruction) : BoundsCheck Instruction :=
  let belowLength := belowLength indexRange lengthRange
  if !(indexRange.isPositive && belowLength) && (indexRange.isNegative || lengthRange.lt indexRange)
  then ⟨.alwaysFalse, none, indexRange⟩
  else
    let staticChecks :=
      if indexRange.isPositive && belowLength then StaticBoundsChecks.alwaysTrue
      else if indexRange.isPositive then .alwaysAboveZero
      else if belowLength then .alwaysBelowLength
      else .fullCheck
    let low := lengthRange.lower.max indexRange.lower
    { staticChecks
      lengthRange :=
        if indexRange.isPositive && low != unknown then some (Range.normalize low lengthRange.upper)
        else none
      range := indexRange.intersection (Range.normalize (int 0) (lengthRange.upper - int 1)) }

/-- `LoopUpdateRecognizer.run`, with the range of the update of the loop. -/
def loopPhi (isPositive : Bool) (startRange updateRange : Range Instruction) : Range Instruction :=
  let lowerMarker := marker true isPositive
  let upperMarker := marker false isPositive
  let deltaRange := (Range.normalize lowerMarker upperMarker).union updateRange
  let lowerLimit := if isPositive then int 0 else minInt
  let lowerBound := if deltaRange.lower == lowerMarker then startRange.lower else lowerLimit
  let upperBound := if deltaRange.upper == upperMarker then startRange.upper else maxInt
  let widened := updateRange.replaceMarkers lowerBound upperBound
  startRange.union widened

end

end Compiler.Ssa
