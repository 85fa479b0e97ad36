import DartSdk.Backend.RangeJoin

/-!
# The selection of 32-bit operations

`IntegerInstructionSelector` of `runtime/vm/compiler/backend/range_analysis.cc`: 64-bit operations of
which only the low 32 bits are used become unsigned 32-bit operations. `none` is a lack of fuel or a
failed `ASSERT`.
-/

namespace Backend

def kMaxUint32 : Int := 2 ^ 32 - 1

/-- The instructions that the selector tells apart, with the inputs that it looks at. -/
inductive Int64Instr
  | boxInt64 (value : DefId)
  | unboxInt64
  /-- Also a `SpeculativeShiftInt64Op`. -/
  | shiftInt64Op (op_kind : Token) (left : DefId)
  | binaryInt64Op (op_kind : Token)
  /-- The operation is `kBIT_NOT` or `kNEGATE`. -/
  | unaryInt64Op (isBitNot : Bool)
  | other
  deriving DecidableEq, Repr

/-- A use, by its instruction if that is a definition with an SSA temp. -/
structure Use where
  definition : Option DefId
  isRight : Bool := false

/-- What the selector reads of a flow graph. -/
structure Int64Graph extends FlowGraph where
  /-- The definitions with an SSA temp, in the order of the blocks. -/
  definitions : List DefId
  instr : DefId → Int64Instr
  inputUses : DefId → List Use
  envUses : DefId → List Use

/-- `BinaryUint32OpInstr::IsSupported`. -/
def Token.isSupported (op : Token) : Bool :=
  op ∈ [.kADD, .kSUB, .kMUL, .kBIT_AND, .kBIT_OR, .kBIT_XOR]

namespace Int64Instr

def isShift : Int64Instr → Bool
  | shiftInt64Op _ _ => true
  | _ => false

def isPotentialUint32Definition : Int64Instr → Bool
  | boxInt64 _ | unboxInt64 | shiftInt64Op _ _ => true
  | binaryInt64Op op => op.isSupported
  | unaryInt64Op isBitNot => isBitNot
  | other => false

end Int64Instr

namespace Int64Graph

open RangeBoundary

variable (g : Int64Graph) (n : Nat) (selected : List DefId) (d : DefId)

def potentialUint32Defs : List DefId :=
  g.definitions.filter fun d => (g.instr d).isPotentialUint32Definition

/-- The definition has a range, and `IsWithin(0, kMaxUint32)` holds of it. -/
def isUint32 : Option Bool :=
  match g.range d with
  | none => some false
  | some r => do
    if ← g.onlyGreaterThanOrEqualTo n r 0 then g.onlyLessThanOrEqualTo n r kMaxUint32
    else return false

def isUint32NarrowingDefinition : Option Bool :=
  match g.instr d with
  | .binaryInt64Op .kBIT_AND => g.isUint32 n d
  | _ => some false

def allUsesAreUint32Narrowing (uses : List Use) : Bool :=
  uses.all fun use => use.definition.any fun d =>
    d ∈ selected && !((g.instr d).isShift && use.isRight)

def canBecomeUint32 : Option Bool := do
  match g.instr d with
  | .boxInt64 value => return value ∈ selected
  | .shiftInt64Op op left =>
    if op = .kSHR ∨ op = .kUSHR then
      if !(← g.isUint32 n left) then return false
  | _ => pure ()
  if (g.inputUses d).isEmpty && (g.envUses d).isEmpty then return false
  return g.allUsesAreUint32Narrowing selected (g.inputUses d) &&
    g.allUsesAreUint32Narrowing selected (g.envUses d)

/-- One definition in an iteration of `Propagate`: what is selected, and `changed`. -/
def propagateStep (s : List DefId × Bool) (d : DefId) : Option (List DefId × Bool) := do
  if d ∈ s.1 then return s
  if let .constant _ _ := g.definition d then return s
  if ← g.canBecomeUint32 n s.1 d then return (s.1 ++ [d], true)
  return s

def propagate (g : Int64Graph) (n : Nat) : Nat → List DefId → Option (List DefId)
  | 0, _ => none
  | fuel + 1, selected => do
    let (selected, changed) ← g.potentialUint32Defs.foldlM (g.propagateStep n) (selected, false)
    if changed then propagate g n fuel selected else return selected

/-- The range that is stored on the replacement. -/
def replacementRange : Option (Option Range) :=
  match g.range d with
  | none => some none
  | some r =>
    if Range.isUnknown (some r) then some none
    else do
      if ← g.isPositive n r then return some r
      return some (Range.new (constant 0) (constant kMaxUint32))

/-- `Select`: the definitions that are replaced, with the ranges of the replacements. -/
def select (fuel : Nat) : Option (List (DefId × Option Range)) := do
  let narrowing ← g.potentialUint32Defs.filterM (g.isUint32NarrowingDefinition n)
  let selected ← g.propagate n fuel narrowing
  (g.potentialUint32Defs.filter (· ∈ selected)).mapM fun d => do
    return (d, ← g.replacementRange n d)

end Int64Graph

end Backend
