import DartSdk.Vm.DataStream

/-!
# Code source maps

`CodeSourceMapOps`, `CodeSourceMapBuilder` and `CodeSourceMapReader` of
`runtime/vm/code_descriptors.cc`, in JIT mode: `stack_traces_only` and `FLAG_precompiled_mode` are
false. A map is a bytecode that pushes and pops inlined functions and changes the position of the
top function while the pc advances. The last element of a stack is its top. `F` are the functions.
-/

namespace Vm

/-! ## Positions -/

/-- The value is also the serialized form. -/
structure TokenPosition where
  value : Int32
  deriving DecidableEq

namespace TokenPosition

def kLastPos : Int32 := -14

def kDartCodePrologue : TokenPosition := ⟨-12⟩

def isReal (p : TokenPosition) : Bool := decide (0 ≤ p.value)

def isSynthetic (p : TokenPosition) : Bool := decide (p.value < kLastPos)

end TokenPosition

structure InstructionSource where
  tokenPos : TokenPosition
  inliningId : Int
  deriving DecidableEq

/-! ## Opcodes -/

inductive Opcode where
  | changePosition
  | advancePC
  | pushFunction
  | popFunction
  | nullCheck
  deriving DecidableEq

namespace CodeSourceMapOps

def toByte : Opcode → Nat
  | .changePosition => 0
  | .advancePC => 1
  | .pushFunction => 2
  | .popFunction => 3
  | .nullCheck => 4

def ofByte : Nat → Option Opcode
  | 0 => some .changePosition
  | 1 => some .advancePC
  | 2 => some .pushFunction
  | 3 => some .popFunction
  | 4 => some .nullCheck
  | _ => none

def kOpBits : Nat := 3

def kArgBits : Nat := 29

def kMaxArgValue : Int := 2 ^ (kArgBits - 1) - 1

def kMinArgValue : Int := -2 ^ (kArgBits - 1)

/-- The argument without its sign bits stands above the opcode, in 32 bits. -/
def encode (op : Opcode) (arg : Int) : Int :=
  toSigned 32 (toByte op + 2 ^ kOpBits * (arg % 2 ^ kArgBits).toNat)

/-- `Write`. -/
def write (stream : List UInt8) (op : Opcode) (arg : Int) : Except Failure (List UInt8) :=
  if kMinArgValue ≤ arg ∧ arg ≤ kMaxArgValue then .ok (stream ++ Vm.write (encode op arg))
  else .error .argument

/-- `Read`. -/
def read (bytes : List UInt8) : Except Failure (Nat × Int × List UInt8) := do
  let (n, bytes) ← Vm.read 32 bytes
  let op := (n % 2 ^ kOpBits).toNat
  let arg := n / 2 ^ kOpBits % 2 ^ kArgBits
  return (op, if arg > kMaxArgValue then arg - 2 ^ kArgBits else arg, bytes)

end CodeSourceMapOps

/-! ## The builder -/

variable {F : Type}

/-- The inlining tree: for each inlining id its caller, its function, and, from the first inlined
one on, the position of its call. -/
structure Inlining (F : Type) where
  callerInlineId : List Int
  inlineIdToTokenPos : List TokenPosition
  inlineIdToFunction : List F

/-- The access to an array. -/
def atIndex {α : Type} (l : List α) (i : Int) : Except Failure α :=
  if 0 ≤ i then
    match l[i.toNat]? with
    | some x => .ok x
    | none => .error .outOfBounds
  else .error .outOfBounds

def last {α : Type} (l : List α) : Except Failure α :=
  match l.getLast? with
  | some x => .ok x
  | none => .error .outOfBounds

/-- The stack with another top. -/
def setLast {α : Type} (l : List α) (x : α) : List α := l.dropLast ++ [x]

structure CodeSourceMapBuilder (F : Type) where
  bufferedPcOffset : Int := 0
  bufferedInlineIdStack : List Int := [0]
  bufferedTokenPosStack : List TokenPosition := [.kDartCodePrologue]
  writtenPcOffset : Int := 0
  writtenInlineIdStack : List Int := [0]
  writtenTokenPosStack : List TokenPosition := [.kDartCodePrologue]
  inlinedFunctions : List F := []
  stream : List UInt8 := []

namespace CodeSourceMapBuilder

variable (b : CodeSourceMapBuilder F)

def bufferChangePosition (pos : TokenPosition) : CodeSourceMapBuilder F :=
  { b with bufferedTokenPosStack := setLast b.bufferedTokenPosStack pos }

def bufferAdvancePC (distance : Int) : CodeSourceMapBuilder F :=
  { b with bufferedPcOffset := b.bufferedPcOffset + distance }

def bufferPush (inlineId : Int) : CodeSourceMapBuilder F :=
  { b with
    bufferedInlineIdStack := b.bufferedInlineIdStack ++ [inlineId]
    bufferedTokenPosStack := b.bufferedTokenPosStack ++ [.kDartCodePrologue] }

def bufferPop : CodeSourceMapBuilder F :=
  { b with
    bufferedInlineIdStack := b.bufferedInlineIdStack.dropLast
    bufferedTokenPosStack := b.bufferedTokenPosStack.dropLast }

def writeOp (op : Opcode) (arg : Int) : Except Failure (CodeSourceMapBuilder F) := do
  let stream ← CodeSourceMapOps.write b.stream op arg
  return { b with stream }

def writeChangePosition (pos : TokenPosition) : Except Failure (CodeSourceMapBuilder F) := do
  let lastWritten ← last b.writtenTokenPosStack
  let b ← b.writeOp .changePosition (pos.value - lastWritten.value).toInt
  return { b with writtenTokenPosStack := setLast b.writtenTokenPosStack pos }

def writeAdvancePC (distance : Int) : Except Failure (CodeSourceMapBuilder F) := do
  let b ← b.writeOp .advancePC distance
  return { b with writtenPcOffset := b.writtenPcOffset + distance }

/-- The index of the function, which is added if it is new. -/
def getFunctionId [DecidableEq F] (t : Inlining F) (b : CodeSourceMapBuilder F) (inlineId : Int) :
    Except Failure (CodeSourceMapBuilder F × Nat) := do
  let function ← atIndex t.inlineIdToFunction inlineId
  if b.inlinedFunctions.idxOf function < b.inlinedFunctions.length then
    return (b, b.inlinedFunctions.idxOf function)
  else
    return ({ b with inlinedFunctions := b.inlinedFunctions ++ [function] },
      b.inlinedFunctions.length)

def writePush [DecidableEq F] (t : Inlining F) (b : CodeSourceMapBuilder F) (inlineId : Int) :
    Except Failure (CodeSourceMapBuilder F) := do
  let (b, functionId) ← getFunctionId t b inlineId
  let b ← b.writeOp .pushFunction functionId
  return { b with
    writtenInlineIdStack := b.writtenInlineIdStack ++ [inlineId]
    writtenTokenPosStack := b.writtenTokenPosStack ++ [.kDartCodePrologue] }

def writePop : Except Failure (CodeSourceMapBuilder F) := do
  let b ← b.writeOp .popFunction 0
  return { b with
    writtenInlineIdStack := b.writtenInlineIdStack.dropLast
    writtenTokenPosStack := b.writtenTokenPosStack.dropLast }

def writeNullCheck (nameIndex : Int) : Except Failure (CodeSourceMapBuilder F) :=
  b.writeOp .nullCheck nameIndex

/-- The top-most position below the given one where the two stacks match. -/
def commonIndex (buffered written : List Int) : Nat → Option Nat
  | 0 => none
  | i + 1 =>
    if i < written.length ∧ buffered[i]? = written[i]? then some i
    else commonIndex buffered written i

def writePops : Nat → CodeSourceMapBuilder F → Except Failure (CodeSourceMapBuilder F)
  | 0, b => .ok b
  | n + 1, b => do
    let b ← b.writePop
    writePops n b

/-- Writes the buffered position of the frame `j` if it differs. -/
def flushPosition (j : Int) : Except Failure (CodeSourceMapBuilder F) := do
  let bufferedPos ← atIndex b.bufferedTokenPosStack j
  let writtenPos ← atIndex b.writtenTokenPosStack j
  if bufferedPos ≠ writtenPos then b.writeChangePosition bufferedPos else return b

/-- Pushes the frame `j`. -/
def flushPush [DecidableEq F] (t : Inlining F) (b : CodeSourceMapBuilder F) (j : Nat) :
    Except Failure (CodeSourceMapBuilder F) := do
  let b ← b.flushPosition ((j : Int) - 1)
  let inlineId ← atIndex b.bufferedInlineIdStack j
  b.writePush t inlineId

def flushBuffer [DecidableEq F] (t : Inlining F) (b : CodeSourceMapBuilder F) :
    Except Failure (CodeSourceMapBuilder F) := do
  match commonIndex b.bufferedInlineIdStack b.writtenInlineIdStack
      b.bufferedInlineIdStack.length with
  | none => .error .unreachable
  | some i =>
    let b ← writePops (b.writtenInlineIdStack.length - (i + 1)) b
    let b ← (List.range' (i + 1) (b.bufferedInlineIdStack.length - (i + 1))).foldlM
      (flushPush t) b
    let b ← b.flushPosition ((b.bufferedTokenPosStack.length : Int) - 1)
    if b.bufferedPcOffset ≠ b.writtenPcOffset then
      b.writeAdvancePC (b.bufferedPcOffset - b.writtenPcOffset)
    else return b

/-- The first caller that is on the buffered stack, and the ids before it, from the callee on. -/
def findCommonParent (t : Inlining F) (stack : List Int) :
    Nat → Int → Except Failure (Int × List Int)
  | 0, _ => .error .diverged
  | fuel + 1, id =>
    if id ∈ stack then .ok (id, [])
    else do
      let caller ← atIndex t.callerInlineId id
      let (commonParent, toPush) ← findCommonParent t stack fuel caller
      return (commonParent, id :: toPush)

def bufferPopTo (commonParent : Int) : Nat → CodeSourceMapBuilder F →
    Except Failure (CodeSourceMapBuilder F)
  | 0, _ => .error .diverged
  | fuel + 1, b => do
    let top ← last b.bufferedInlineIdStack
    if top ≠ commonParent then bufferPopTo commonParent fuel b.bufferPop else return b

def pushCallee (t : Inlining F) (b : CodeSourceMapBuilder F) (calleeId : Int) :
    Except Failure (CodeSourceMapBuilder F) := do
  let pos ← atIndex t.inlineIdToTokenPos (calleeId - 1)
  return (b.bufferChangePosition pos).bufferPush calleeId

variable [DecidableEq F] (t : Inlining F) (b : CodeSourceMapBuilder F)

/-- The ids to push are those that `findCommonParent` went through. -/
def startInliningInterval
    (source : InstructionSource) : Except Failure (CodeSourceMapBuilder F) := do
  if !source.tokenPos.isReal && !source.tokenPos.isSynthetic then return b
  let top ← last b.bufferedInlineIdStack
  if top = source.inliningId then return b
  if source.inliningId < 0 then return b
  let b ← b.flushBuffer t
  let (commonParent, toPush) ← findCommonParent t b.bufferedInlineIdStack
    (t.callerInlineId.length + 1) source.inliningId
  let b ← bufferPopTo commonParent (b.bufferedInlineIdStack.length + 1) b
  toPush.reverse.foldlM (pushCallee t) b

def beginCodeSourceRange (source : InstructionSource) : Except Failure (CodeSourceMapBuilder F) :=
  b.startInliningInterval t source

def endCodeSourceRange
    (pcOffset : Int) (source : InstructionSource) : Except Failure (CodeSourceMapBuilder F) := do
  if pcOffset = b.bufferedPcOffset then return b
  let b ← b.startInliningInterval t source
  let top ← last b.bufferedTokenPosStack
  if source.tokenPos ≠ top then
    let b ← b.flushBuffer t
    let b := b.bufferChangePosition source.tokenPos
    return b.bufferAdvancePC (pcOffset - b.bufferedPcOffset)
  else return b.bufferAdvancePC (pcOffset - b.bufferedPcOffset)

/-- `UntaggedPcDescriptors::Kind`. -/
inductive Kind where
  | deopt
  | icCall
  | unoptStaticCall
  | runtimeCall
  | osrEntry
  | rewind
  | bssRelocation
  | other
  deriving DecidableEq

def canThrow : Kind → Bool
  | .icCall | .unoptStaticCall | .runtimeCall | .other => true
  | _ => false

/-- What `NoteDescriptor` and `NoteNullCheck` have in common. -/
def noteSource (pcOffset : Int)
    (source : InstructionSource) : Except Failure (CodeSourceMapBuilder F) := do
  let b ← b.startInliningInterval t source
  let b := b.bufferChangePosition source.tokenPos
  let b := b.bufferAdvancePC (pcOffset - b.bufferedPcOffset)
  b.flushBuffer t

def noteDescriptor (kind : Kind)
    (pcOffset : Int) (source : InstructionSource) : Except Failure (CodeSourceMapBuilder F) :=
  if canThrow kind then b.noteSource t pcOffset source else .ok b

def noteNullCheck (pcOffset : Int)
    (source : InstructionSource) (nameIndex : Int) : Except Failure (CodeSourceMapBuilder F) := do
  let b ← b.noteSource t pcOffset source
  b.writeNullCheck nameIndex

/-- `Finalize`: the map and the functions. -/
def finalize : Except Failure (List UInt8 × List F) := do
  let b ← b.flushBuffer t
  return (b.stream, b.inlinedFunctions)

/-! ## Calls of the builder -/

inductive Call where
  | beginCodeSourceRange (pcOffset : Int) (source : InstructionSource)
  | endCodeSourceRange (pcOffset : Int) (source : InstructionSource)
  | noteDescriptor (kind : Kind) (pcOffset : Int) (source : InstructionSource)
  | noteNullCheck (pcOffset : Int) (source : InstructionSource) (nameIndex : Int)
  deriving DecidableEq

def call : Call → Except Failure (CodeSourceMapBuilder F)
  | .beginCodeSourceRange _ source => b.beginCodeSourceRange t source
  | .endCodeSourceRange pcOffset source => b.endCodeSourceRange t pcOffset source
  | .noteDescriptor kind pcOffset source => b.noteDescriptor t kind pcOffset source
  | .noteNullCheck pcOffset source nameIndex => b.noteNullCheck t pcOffset source nameIndex

/-- The builder after some calls. -/
def run (calls : List Call) : Except Failure (CodeSourceMapBuilder F) :=
  calls.foldlM (call t) {}

end CodeSourceMapBuilder

/-! ## The reader -/

namespace CodeSourceMapReader

structure State (F : Type) where
  currentPcOffset : Int
  functionStack : List F
  tokenPositions : List TokenPosition

/-- One opcode; none if the reader stops. -/
def step (functions : List F) (pcOffset : Int) (s : State F) (op : Opcode) (arg : Int) :
    Except Failure (Option (State F)) :=
  match op with
  | .changePosition => do
    let oldToken ← last s.tokenPositions
    return some { s with
      tokenPositions := setLast s.tokenPositions ⟨Int32.ofInt arg + oldToken.value⟩ }
  | .advancePC =>
    if s.currentPcOffset + arg > pcOffset then .ok none
    else .ok (some { s with currentPcOffset := s.currentPcOffset + arg })
  | .pushFunction => do
    let function ← atIndex functions arg
    return some { s with
      functionStack := s.functionStack ++ [function]
      tokenPositions := s.tokenPositions ++ [.kDartCodePrologue] }
  | .popFunction =>
    if s.functionStack.length > 1 ∧ s.tokenPositions.length > 1 then
      .ok (some { s with
        functionStack := s.functionStack.dropLast
        tokenPositions := s.tokenPositions.dropLast })
    else .error .outOfBounds
  | .nullCheck => .ok (some s)

def loop (functions : List F) (pcOffset : Int) : Nat → State F → List UInt8 →
    Except Failure (State F)
  | 0, _, _ => .error .diverged
  | fuel + 1, s, bytes =>
    if bytes.length > 0 then do
      let (n, arg, bytes) ← CodeSourceMapOps.read bytes
      match CodeSourceMapOps.ofByte n with
      | some op =>
        match ← step functions pcOffset s op arg with
        | some s => loop functions pcOffset fuel s bytes
        | none => return s
      | none => .error .unreachable
    else .ok s

/-- The functions and their positions, from the root on. -/
def getInlinedFunctionsAt (functions : List F) (root : F) (map : List UInt8) (pcOffset : Int) :
    Except Failure (List F × List TokenPosition) := do
  let s ← loop functions pcOffset (map.length + 1) ⟨0, [root], [.kDartCodePrologue]⟩ map
  return (s.functionStack, s.tokenPositions)

end CodeSourceMapReader

end Vm
