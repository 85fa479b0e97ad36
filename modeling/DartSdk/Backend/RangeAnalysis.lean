import DartSdk.Lib.OneSided
import DartSdk.Platform.Utils

/-!
# Symbolic ranges and redundant bounds checks

`runtime/vm/compiler/backend/range_analysis.{h,cc}`: range boundaries, the two canonicalisers of
symbolic boundaries, and `IsRedundantBasedOnRangeInformation`, with what these read of the flow
graph (`il.h`).

`LowerBound`/`UpperBound` and `CanonicalizeMinBoundary`/`CanonicalizeMaxBoundary` are each one
definition over the `Side` they work on. The source chases pointers in loops and recursions that
end because ranges are acyclic; here they take a fuel argument, and `none` is a lack of fuel or a
failed `ASSERT`.
-/

namespace Backend

/-! ## The target -/

/-- The width of a Smi depends on the target (`compiler::target::kSmiBits`). -/
structure Target where
  kSmiBits : Nat
  deriving DecidableEq, Repr

namespace Target

def kSmiMax (t : Target) : Int := 2 ^ t.kSmiBits - 1

def kSmiMin (t : Target) : Int := -2 ^ t.kSmiBits

def isSmi (t : Target) (x : Int) : Bool := t.kSmiMin ≤ x && x ≤ t.kSmiMax

end Target

/-- The value of a Smi object. -/
abbrev Smi (t : Target) := { x : Int // t.isSmi x = true }

/-! ## Definitions -/

/-- The operations of a `BinarySmiOpInstr`. -/
inductive Token
  | kADD
  | kSUB
  | kMUL
  | kTRUNCDIV
  | kMOD
  | kBIT_AND
  | kBIT_OR
  | kBIT_XOR
  | kSHL
  | kSHR
  | kUSHR
  deriving DecidableEq, Repr

/-- A definition is named by its SSA index. -/
abbrev DefId := Nat

/-- The object of a `ConstantInstr`: a Smi, or any other object by its address. -/
inductive ConstantObject (t : Target)
  | smi (value : Smi t)
  | object (ptr : Nat)
  deriving DecidableEq

/-- The instructions the analysis tells apart. Any other one is its tag, the attributes that
`AttributesEqual` compares, its inputs, `AllowsCSE` and, if it has one, its `RedefinedValue`. -/
inductive Definition (t : Target)
  | constant (value : ConstantObject t) (representation : Nat)
  | constraint (value : DefId)
  | binarySmiOp (op_kind : Token) (left right : DefId) (can_overflow is_truncating : Bool)
  | other (tag attributes : Nat) (inputs : List DefId) (allowsCSE : Bool)
      (redefinedValue : Option DefId)
  deriving DecidableEq

namespace Definition

variable {t : Target}

def allowsCSE : Definition t → Bool
  | constant _ _ => true
  | constraint _ => false
  | binarySmiOp _ _ _ _ _ => true
  | other _ _ _ cse _ => cse

/-- `Instruction::Equals`: the same tag, inputs and attributes. -/
def equals : Definition t → Definition t → Bool
  | other tag attributes inputs _ _, other tag' attributes' inputs' _ _ =>
    tag == tag' && inputs == inputs' && attributes == attributes'
  | a, b => a == b

def redefinedValue : Definition t → Option DefId
  | other _ _ _ _ value => value
  | _ => none

/-- `IsConstant()` and `IsSmi()` of its value. -/
def asSmiConstant : Definition t → Option Int
  | constant (.smi c) _ => some c.1
  | _ => none

end Definition

/-! ## Range boundaries -/

inductive RangeBoundary
  | unknown
  | negativeInfinity
  | positiveInfinity
  | symbol (defn : DefId) (offset : Int)
  | constant (value : Int)
  deriving DecidableEq, Repr

namespace RangeBoundary

def isInfinity : RangeBoundary → Bool
  | negativeInfinity => true
  | positiveInfinity => true
  | _ => false

def isSymbol : RangeBoundary → Bool
  | symbol _ _ => true
  | _ => false

/-- `ConstantValue()`, which asserts `IsConstant()`. -/
def constantValue : RangeBoundary → Option Int
  | constant c => some c
  | _ => none

/-- `offset_` is zero in all but symbolic boundaries. -/
def offset : RangeBoundary → Int
  | symbol _ offs => offs
  | _ => 0

/-- Offsets for which a symbolic boundary cannot wrap around. -/
def isValidOffsetForSymbolicRangeBoundary (t : Target) (offset : Int) : Bool :=
  !(offset > kMaxInt64 - t.kSmiMax || offset < kMinInt64 - t.kSmiMin)

/-- Returns true when this is a constant that is outside of Smi range. -/
def overflowedSmi (t : Target) : RangeBoundary → Bool
  | constant c => !t.isSmi c
  | b => b.isInfinity

/-- `Clamp(kRangeBoundarySmi)`. -/
def clampSmi (t : Target) : RangeBoundary → RangeBoundary
  | negativeInfinity => constant t.kSmiMin
  | positiveInfinity => constant t.kSmiMax
  | constant c =>
    if c ≤ t.kSmiMin then constant t.kSmiMin
    else if c ≥ t.kSmiMax then constant t.kSmiMax
    else constant c
  | b => b

/-- `Add` of two constants. -/
def add (a b overflow : RangeBoundary) : Option RangeBoundary :=
  if a.isInfinity || b.isInfinity then some overflow
  else do
    let x ← a.constantValue
    let y ← b.constantValue
    if Utils.willAddOverflow x y then return overflow
    return constant (x + y)

/-- The infinity that stands for no bound on a side. -/
def infinity : Side → RangeBoundary
  | .lower => negativeInfinity
  | .upper => positiveInfinity

/-- `MinConstant(kRangeBoundarySmi)` and `MaxConstant(kRangeBoundarySmi)`. -/
def smiConstant (t : Target) : Side → RangeBoundary
  | .lower => constant t.kSmiMin
  | .upper => constant t.kSmiMax

end RangeBoundary

open RangeBoundary

/-- A range. Its constructor replaces infinite boundaries by the full 64-bit range. -/
structure Range where
  min : RangeBoundary
  max : RangeBoundary
  finite : min.isInfinity = false ∧ max.isInfinity = false

namespace Range

/-- The boundary on a side. -/
def boundary (r : Range) : Side → RangeBoundary
  | .lower => r.min
  | .upper => r.max

end Range

/-- What the analysis reads of a flow graph. -/
structure FlowGraph where
  target : Target
  definition : DefId → Definition target
  range : DefId → Option Range

namespace FlowGraph

variable (g : FlowGraph) (d : DefId) (r : Range)

def setRange : FlowGraph :=
  { g with range := fun e => if e = d then some r else g.range e }

/-- `UnwrapConstraint`. -/
def unwrapConstraint (g : FlowGraph) : Nat → DefId → Option DefId
  | 0, _ => none
  | n + 1, d =>
    match g.definition d with
    | .constraint value => unwrapConstraint g n value
    | _ => some d

/-- `Definition::OriginalDefinition`. -/
def originalDefinition (g : FlowGraph) : Nat → DefId → Option DefId
  | 0, _ => none
  | n + 1, d =>
    match (g.definition d).redefinedValue with
    | some value => originalDefinition g n value
    | none => some d

/-- `Value::BindsToSmiConstant` and `Value::BoundSmiConstant`: the inner option is the answer. -/
def boundSmiConstant (n : Nat) (d : DefId) : Option (Option Int) :=
  (fun original => (g.definition original).asSmiConstant) <$> g.originalDefinition n d

/-- `RangeBoundary::FromDefinition`. Its callers have tested the offset. -/
def fromDefinition (defn : DefId) (offs : Int) : RangeBoundary :=
  match (g.definition defn).asSmiConstant with
  | some c => constant (c + offs)
  | none => symbol defn offs

/-- `AreEqualDefinitions`. -/
def areEqualDefinitions (n : Nat) (a b : DefId) : Option Bool := do
  let a ← g.unwrapConstraint n a
  let b ← g.unwrapConstraint n b
  return a == b || ((g.definition a).allowsCSE && (g.definition b).allowsCSE &&
    (g.definition a).equals (g.definition b))

/-- `DependOnSameSymbol`. -/
def dependOnSameSymbol (n : Nat) : RangeBoundary → RangeBoundary → Option Bool
  | symbol a _, symbol b _ => g.areEqualDefinitions n a b
  | _, _ => some false

/-! ## Constant bounds -/

/-- A boundary's constant bound on a side: `LowerBound()` or `UpperBound()`. The range of a symbol
is clamped to the Smis. -/
def constantBound (g : FlowGraph) (side : Side) : Nat → RangeBoundary → Option RangeBoundary
  | 0, _ => none
  | n + 1, b =>
    match b with
    | unknown => none
    | negativeInfinity => some (infinity side)
    | positiveInfinity => some (infinity side)
    | constant c => some (constant c)
    | symbol s offs => do
      let bound ← match g.range s with
        | none => some (smiConstant g.target side)
        | some r => clampSmi g.target <$> constantBound g side n (r.boundary side)
      bound.add (constant offs) (infinity side)

def lowerBound : Nat → RangeBoundary → Option RangeBoundary :=
  g.constantBound .lower

def upperBound : Nat → RangeBoundary → Option RangeBoundary :=
  g.constantBound .upper

/-- `Range::ConstantMinSmi` of a range that is there. -/
def constantMinSmi (n : Nat) (r : Range) : Option RangeBoundary :=
  clampSmi g.target <$> g.lowerBound n r.min

/-! ## Canonicalisation -/

/-- How an iteration of `CanonicalizeBoundary` ends: `changed` stays false, the offset overflows,
or the loop goes on. -/
inductive CanonicalizeStep
  | unchanged
  | overflow
  | changed (symbol : DefId) (offset : Int)

/-- The addition of the constant operand `rhs`. `Smi::Cast` fails on any other object. -/
def addConstant {t : Target} (rhs : ConstantObject t) (next : DefId) (offset : Int) :
    Option CanonicalizeStep :=
  match rhs with
  | .smi c =>
    if Utils.willAddOverflow offset c.1 then some .overflow
    else some (.changed next (offset + c.1))
  | .object _ => none

/-- One iteration of `CanonicalizeBoundary`: through a constraint or the addition of a constant. -/
def canonicalizeStep (s : DefId) (offset : Int) : Option CanonicalizeStep :=
  match g.definition s with
  | .constraint value => some (.changed value offset)
  | .binarySmiOp .kADD left right _ _ =>
    match g.definition right, g.definition left with
    | .constant value _, _ => addConstant value left offset
    | _, .constant value _ => addConstant value right offset
    | _, _ => some .unchanged
  | .binarySmiOp .kSUB left right _ _ =>
    match g.definition right with
    | .constant (.smi c) _ =>
      if Utils.willSubOverflow offset c.1 then some .overflow
      else some (.changed left (offset - c.1))
    | .constant (.object _) _ => none
    | _ => some .unchanged
  | _ => some .unchanged

/-- The loop of `CanonicalizeBoundary`. The inner option is `none` when the offset overflows. -/
def canonicalizeLoop (g : FlowGraph) : Nat → DefId → Int → Option (Option (DefId × Int))
  | 0, _, _ => none
  | n + 1, s, offset => do
    match ← g.canonicalizeStep s offset with
    | .unchanged => return some (s, offset)
    | .overflow => return none
    | .changed s offset => canonicalizeLoop g n s offset

/-- `CanonicalizeBoundary`. -/
def canonicalizeBoundary (n : Nat) (a overflow : RangeBoundary) : Option RangeBoundary :=
  match a with
  | symbol s offs => do
    match ← g.canonicalizeLoop n s offs with
    | none => return overflow
    | some (s, offset) =>
      if !isValidOffsetForSymbolicRangeBoundary g.target offset then return overflow
      return g.fromDefinition s offset
  | unknown => none
  | _ => some a

/-- `CanonicalizeMaxBoundary` or `CanonicalizeMinBoundary`: a symbol is replaced by its own
symbolic boundary. The inner option is `none` when the boundary is left as it is (the source
returns false). -/
def canonicalizeOn (side : Side) (n : Nat) (a : RangeBoundary) : Option (Option RangeBoundary) :=
  match a with
  | symbol s offs =>
    match (g.range s).map (·.boundary side) with
    | some (symbol s' offs') =>
      if Utils.willAddOverflow offs' offs then some (some (infinity side))
      else if !isValidOffsetForSymbolicRangeBoundary g.target (offs' + offs) then
        some (some (infinity side))
      else some <$> g.canonicalizeBoundary n (g.fromDefinition s' (offs' + offs)) (infinity side)
    | _ => some none
  | _ => some none

def canonicalizeMaxBoundary : Nat → RangeBoundary → Option (Option RangeBoundary) :=
  g.canonicalizeOn .upper

def canonicalizeMinBoundary : Nat → RangeBoundary → Option (Option RangeBoundary) :=
  g.canonicalizeOn .lower

/-! ## Redundant bounds checks -/

/-- The symbolic comparison: `max` goes up and `canonical_length` goes down until both depend on
the same symbol. -/
def compareSymbolic (g : FlowGraph) (fuel : Nat) :
    Nat → RangeBoundary → RangeBoundary → Option Bool
  | 0, _, _ => none
  | n + 1, max, canonicalLength => do
    if ← g.dependOnSameSymbol fuel max canonicalLength then
      return max.offset < canonicalLength.offset
    match ← g.canonicalizeMaxBoundary fuel max with
    | some max => compareSymbolic g fuel n max canonicalLength
    | none =>
      match ← g.canonicalizeMinBoundary fuel canonicalLength with
      | some canonicalLength => compareSymbolic g fuel n max canonicalLength
      | none => return false

/-- `IsRedundantBasedOnRangeInformation` once the range of the index is known. -/
def isRedundantBasedOnRange (fuel : Nat) (index : DefId) (indexRange : Range)
    (length : DefId) : Option Bool := do
  let min ← (← g.constantMinSmi fuel indexRange).constantValue
  if min < 0 then return false
  let max := g.fromDefinition index 0
  let maxUpper ← g.upperBound fuel max
  let arrayLength := g.fromDefinition length 0
  let lengthLower ← g.lowerBound fuel arrayLength
  if maxUpper.overflowedSmi g.target || lengthLower.overflowedSmi g.target then return false
  if (← maxUpper.constantValue) < (← lengthLower.constantValue) then return true
  let canonicalLength ← g.canonicalizeBoundary fuel arrayLength positiveInfinity
  if canonicalLength.overflowedSmi g.target then return false
  g.compareSymbolic fuel fuel max canonicalLength

/-- `IsRedundantBasedOnRangeInformation`. An index without a range that is a redefinition of a
constant gets the range that `ConstantInstr::InferRange` computes. -/
def isRedundantBasedOnRangeInformation (fuel : Nat) (index length : DefId) : Option Bool := do
  let indexConstant ← g.boundSmiConstant fuel index
  let lengthConstant ← g.boundSmiConstant fuel length
  match indexConstant, lengthConstant with
  | some indexVal, some lengthVal => return 0 ≤ indexVal && indexVal < lengthVal
  | _, _ =>
    match g.range index, indexConstant with
    | some indexRange, _ => g.isRedundantBasedOnRange fuel index indexRange length
    | none, none => return false
    | none, some c =>
      let indexDefn ← g.originalDefinition fuel index
      let indexRange : Range := ⟨constant c, constant c, rfl, rfl⟩
      (g.setRange indexDefn indexRange).isRedundantBasedOnRange fuel indexDefn indexRange length

end FlowGraph

end Backend
