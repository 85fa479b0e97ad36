import DartSdk.Platform.MagicDivision

/-!
# Division of 64-bit integers by a constant

`EmitInt64ModTruncDiv` of `runtime/vm/compiler/backend/il_x64.cc` and `il_arm64.cc` for a constant
divisor below `-1` or above `1`, and the instructions it emits. A register holds 64 bits. Of the
flags there is the one that is read: whether a comparison found its first operand less.
-/

namespace Backend

inductive DivisionKind where
  | kTRUNCDIV
  | kMOD
  deriving DecidableEq, Repr

/-- The high word of a signed product. -/
def mulHigh (a b : BitVec 64) : BitVec 64 := BitVec.ofInt 64 (a.toInt * b.toInt / 2 ^ 64)

/-! ## x64 -/

namespace X64

inductive Register where
  | RAX
  | RDX
  | TMP
  deriving DecidableEq, Repr

inductive Instr where
  | movq (dst src : Register)
  | loadImmediate (dst : Register) (imm : BitVec 64)
  /-- `RDX:RAX` becomes the product of `RAX` and the operand. -/
  | imulqWide (src : Register)
  | imulq (dst src : Register)
  | addq (dst src : Register)
  | subq (dst src : Register)
  | sarq (dst : Register) (imm : Nat)
  | shrq (dst : Register) (imm : Nat)
  | testq (a b : Register)
  | jGreaterEqual (label : Nat)
  | bind (label : Nat)
  deriving DecidableEq, Repr

structure State where
  reg : Register → BitVec 64
  less : Bool := false
  /-- The label of a jump under way: the instructions before it are not executed. -/
  target : Option Nat := none

def State.set (s : State) (r : Register) (v : BitVec 64) : State :=
  { s with reg := fun r' => if r' = r then v else s.reg r' }

def exec (s : State) : Instr → State
  | .movq dst src => s.set dst (s.reg src)
  | .loadImmediate dst imm => s.set dst imm
  | .imulqWide src =>
    (s.set .RDX (mulHigh (s.reg .RAX) (s.reg src))).set .RAX (s.reg .RAX * s.reg src)
  | .imulq dst src => s.set dst (s.reg dst * s.reg src)
  | .addq dst src => s.set dst (s.reg dst + s.reg src)
  | .subq dst src => s.set dst (s.reg dst - s.reg src)
  | .sarq dst imm => s.set dst ((s.reg dst).sshiftRight imm)
  | .shrq dst imm => s.set dst (s.reg dst >>> imm)
  | .testq a b => { s with less := (s.reg a &&& s.reg b).msb }
  | .jGreaterEqual label => if s.less then s else { s with target := some label }
  | .bind _ => s

def step (s : State) (i : Instr) : State :=
  match s.target with
  | none => exec s i
  | some label => if i = .bind label then { s with target := none } else s

def run (code : List Instr) (s : State) : State := code.foldl step s

/-- The code up to the finalization, which leaves the quotient in `RDX`. -/
def emitQuotient (divisor magic : BitVec 64) (shift : Int) : List Instr :=
  [.movq .TMP .RAX, .loadImmediate .RAX magic, .imulqWide .TMP] ++
  (if divisor.toInt > 0 ∧ magic.toInt < 0 then [.addq .RDX .TMP]
    else if divisor.toInt < 0 ∧ magic.toInt > 0 then [.subq .RDX .TMP]
    else []) ++
  (if shift ≠ 0 then [.sarq .RDX shift.toNat] else []) ++
  [.movq .RAX .RDX, .shrq .RDX 63, .addq .RDX .RAX]

def pos : Nat := 0

def emitFinalize (divisor : BitVec 64) : DivisionKind → List Instr
  | .kTRUNCDIV => [.movq .RAX .RDX]
  | .kMOD =>
    [.movq .RAX .TMP, .loadImmediate .TMP divisor, .imulq .RDX .TMP, .subq .RAX .RDX,
      .testq .RAX .RAX, .jGreaterEqual pos,
      if divisor.toInt > 0 then .addq .RAX .TMP else .subq .RAX .TMP, .bind pos, .movq .RDX .RAX]

def emitInt64ModTruncDiv (opKind : DivisionKind) (divisor : BitVec 64) : Option (List Instr) := do
  let (magic, shift) ← Utils.calculateMagicAndShiftForDivRem divisor
  return emitQuotient divisor magic shift ++ emitFinalize divisor opKind

/-- The output register. -/
def out : DivisionKind → Register
  | .kTRUNCDIV => .RAX
  | .kMOD => .RDX

end X64

/-! ## arm64 -/

namespace Arm64

/-- The registers that the code names, and those of the register allocator. -/
inductive Register where
  | TMP
  | TMP2
  | ZR
  | R (n : Nat)
  deriving DecidableEq, Repr

/-- A register, or a register shifted right arithmetically. -/
inductive Operand where
  | reg (r : Register)
  | asr (r : Register) (shift : Nat)
  deriving DecidableEq, Repr

inductive Instr where
  | loadImmediate (rd : Register) (imm : BitVec 64)
  | smulh (rd rn rm : Register)
  | add (rd rn : Register) (o : Operand)
  | sub (rd rn : Register) (o : Operand)
  /-- `rd` becomes `ra - rn * rm`. -/
  | msub (rd rn rm ra : Register)
  | compareRegisters (rn rm : Register)
  /-- `rd` becomes `rn` if the comparison found less, and `rm` otherwise. -/
  | cselLT (rd rn rm : Register)
  deriving DecidableEq, Repr

structure State where
  reg : Register → BitVec 64
  less : Bool := false

/-- The zero register reads as zero. -/
def State.get (s : State) : Register → BitVec 64
  | .ZR => 0
  | r => s.reg r

def State.set (s : State) (r : Register) (v : BitVec 64) : State :=
  { s with reg := fun r' => if r' = r then v else s.reg r' }

def State.operand (s : State) : Operand → BitVec 64
  | .reg r => s.get r
  | .asr r shift => (s.get r).sshiftRight shift

def exec (s : State) : Instr → State
  | .loadImmediate rd imm => s.set rd imm
  | .smulh rd rn rm => s.set rd (mulHigh (s.get rn) (s.get rm))
  | .add rd rn o => s.set rd (s.get rn + s.operand o)
  | .sub rd rn o => s.set rd (s.get rn - s.operand o)
  | .msub rd rn rm ra => s.set rd (s.get ra - s.get rn * s.get rm)
  | .compareRegisters rn rm => { s with less := (s.get rn).slt (s.get rm) }
  | .cselLT rd rn rm => s.set rd (if s.less then s.get rn else s.get rm)

def run (code : List Instr) (s : State) : State := code.foldl exec s

/-- The code up to the finalization. -/
def emitHigh (divisor magic : BitVec 64) (shift : Int) (left : Register) : List Instr :=
  [.loadImmediate .TMP2 magic, .smulh .TMP2 .TMP2 left] ++
  (if divisor.toInt > 0 ∧ magic.toInt < 0 then [.add .TMP2 .TMP2 (.reg left)]
    else if divisor.toInt < 0 ∧ magic.toInt > 0 then [.sub .TMP2 .TMP2 (.reg left)]
    else []) ++
  (if shift ≠ 0 then [.add .TMP2 .ZR (.asr .TMP2 shift.toNat)] else [])

def emitFinalize (divisor : BitVec 64) (left out : Register) : DivisionKind → List Instr
  | .kTRUNCDIV => [.sub out .TMP2 (.asr .TMP2 63)]
  | .kMOD =>
    [.sub .TMP2 .TMP2 (.asr .TMP2 63), .loadImmediate .TMP divisor, .msub out .TMP2 .TMP left,
      .compareRegisters out .ZR,
      if divisor.toInt > 0 then .add .TMP2 out (.reg .TMP) else .sub .TMP2 out (.reg .TMP),
      .cselLT out .TMP2 out]

def emitInt64ModTruncDiv (opKind : DivisionKind) (divisor : BitVec 64) (left out : Register) :
    Option (List Instr) := do
  let (magic, shift) ← Utils.calculateMagicAndShiftForDivRem divisor
  return emitHigh divisor magic shift left ++ emitFinalize divisor left out opKind

end Arm64

end Backend
