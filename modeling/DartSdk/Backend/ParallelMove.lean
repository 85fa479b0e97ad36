import DartSdk.Lib.ParallelAssign

/-!
# The parallel move resolver

`runtime/vm/compiler/backend/parallel_move_resolver.cc`, with `Location` (`locations.h`) and
`MoveOperands` (`il.h`). The resolver's mutable fields (`moves_`, `scheduled_ops_`) are the state
`ResolverState`; a failed `ASSERT` is `none`. `PerformMove` recurses on a fuel argument (`none` when
it runs out); `Resolve` starts it with one more than the number of moves.

The meaning of a schedule is `MoveSchedule.exec`: its operations one at a time on a store.
-/

namespace Backend

/-! ## Locations -/

/-- `Location::Policy`. -/
inductive Policy
  | any
  | prefersRegister
  | requiresRegister
  | requiresFpuRegister
  | writableRegister
  | sameAsFirstInput
  | requiresStack
  deriving DecidableEq, Repr

/-- `Location`, decoded from its tagged word. A constant is its instruction and pair index, a pair
location the address of its `PairLocation`. -/
inductive Location
  | noLocation
  | constant (obj : Nat) (pairIndex : Bool)
  | pairLocation (pair : Nat)
  | unallocated (policy : Policy)
  | stackSlot (index : Int) (base : Nat)
  | doubleStackSlot (index : Int) (base : Nat)
  | quadStackSlot (index : Int) (base : Nat)
  | register (reg : Nat)
  | fpuRegister (reg : Nat)
  deriving DecidableEq, Repr

namespace Location

def isInvalid : Location → Bool
  | noLocation => true
  | _ => false

def isConstant : Location → Bool
  | constant _ _ => true
  | _ => false

end Location

/-! ## Moves -/

structure MoveOperands where
  dest : Location
  src : Location
  deriving DecidableEq, Repr

namespace MoveOperands

variable (m : MoveOperands)

/-- Both operands are cleared when the move is eliminated. -/
def isEliminated : Bool := m.src.isInvalid

/-- Only the destination is cleared while the move is in progress. -/
def isPending : Bool := m.dest.isInvalid && !m.src.isInvalid

def blocks (loc : Location) : Bool := !m.isEliminated && m.src == loc

def isRedundant : Bool := m.isEliminated || m.dest.isInvalid || m.src == m.dest

def setSrc (value : Location) : MoveOperands := { m with src := value }

def markPending : MoveOperands := { m with dest := .noLocation }

def clearPending (dest : Location) : MoveOperands := { m with dest }

def eliminate (_ : MoveOperands) : MoveOperands := ⟨.noLocation, .noLocation⟩

end MoveOperands

/-- `ParallelMoveInstr`: its moves. A destination is never a constant (`EmitMove` of every target
asserts it is a register or a stack slot). -/
structure ParallelMoveInstr where
  moves : List MoveOperands
  dest_storage : ∀ m ∈ moves, m.dest.isConstant = false

/-! ## Schedules -/

inductive OpKind
  | nop
  | move
  | swap
  deriving DecidableEq, Repr

structure Op where
  kind : OpKind
  operands : MoveOperands
  deriving DecidableEq, Repr

abbrev MoveSchedule := List Op

/-- The schedule of the given operations, without the `kNop`s. -/
def MoveSchedule.from (ops : List Op) : MoveSchedule := ops.filter fun op => op.kind ≠ .nop

/-- One operation on a store: copy the source to the destination, or exchange the two. -/
def Op.exec {V : Type} (op : Op) (σ : Location → V) : Location → V :=
  match op.kind with
  | .nop => σ
  | .move => ParallelAssign.copy op.operands.dest op.operands.src σ
  | .swap => ParallelAssign.exchange op.operands.src op.operands.dest σ

def MoveSchedule.exec {V : Type} (ops : MoveSchedule) (σ : Location → V) : Location → V :=
  ops.foldl (fun σ op => op.exec σ) σ

/-! ## The resolver -/

/-- The resolver's fields. -/
structure ResolverState where
  moves : List MoveOperands
  scheduledOps : List Op
  deriving DecidableEq, Repr

namespace ResolverState

variable (st : ResolverState) (index : Nat) (m : MoveOperands)

def setMove : ResolverState :=
  { st with moves := st.moves.set index m }

def addMoveToSchedule : ResolverState :=
  { moves := st.moves.set index m.eliminate, scheduledOps := st.scheduledOps ++ [⟨.move, m⟩] }

/-- The source of a pending or unperformed move after `source` and `destination` are exchanged. -/
def redirectSrc (source destination : Location) (other : MoveOperands) : MoveOperands :=
  if other.blocks source then other.setSrc destination
  else if other.blocks destination then other.setSrc source
  else other

def addSwapToSchedule : ResolverState :=
  { moves := (st.moves.set index m.eliminate).map (redirectSrc m.src m.dest),
    scheduledOps := st.scheduledOps ++ [⟨.swap, m⟩] }

/-- The end of `PerformMove`, after every unpending blocking move is performed: `m` is the move at
`index`, still marked as pending, and `destination` its saved destination. -/
def finishMove (destination : Location) : Option ResolverState :=
  let m := m.clearPending destination
  let st := st.setMove index m
  if m.src = destination then
    some (st.setMove index m.eliminate)
  else
    match st.moves.find? fun other => other.blocks destination with
    | some other => if other.isPending then some (st.addSwapToSchedule index m) else none
    | none => some (st.addMoveToSchedule index m)

/-- `ParallelMoveResolver::PerformMove`. -/
def performMove : Nat → Nat → ResolverState → Option ResolverState
  | 0, _, _ => none
  | fuel + 1, index, st => do
    let m ← st.moves[index]?
    guard (!m.isPending && !m.isRedundant && !m.src.isInvalid)
    let destination := m.dest
    let st := st.setMove index m.markPending
    let st ← (List.range st.moves.length).foldlM (fun st i => do
      let other ← st.moves[i]?
      if other.blocks destination && !other.isPending then performMove fuel i st else pure st) st
    let m ← st.moves[index]?
    guard m.isPending
    st.finishMove index m destination

end ResolverState

/-- `BuildInitialMoveList`. -/
def buildInitialMoveList (parallelMove : ParallelMoveInstr) : List MoveOperands :=
  parallelMove.moves.filter fun m => !m.isRedundant

/-- The first loop of `Resolve`: the moves whose source is not a constant. -/
def performMoves (fuel : Nat) (st : ResolverState) : Option ResolverState :=
  (List.range st.moves.length).foldlM (fun st i => do
    let m ← st.moves[i]?
    if !m.isEliminated && !m.src.isConstant then st.performMove fuel i else pure st) st

/-- The second loop of `Resolve`: the moves with constant sources. -/
def scheduleConstants (moves : List MoveOperands) (ops : List Op) : Option (List Op) :=
  moves.foldlM (fun ops m =>
    if m.isEliminated then pure ops
    else if m.src.isConstant then pure (ops ++ [⟨.move, m⟩])
    else none) ops

/-- `ParallelMoveResolver::Resolve`. -/
def resolve (parallelMove : ParallelMoveInstr) : Option MoveSchedule := do
  let moves := buildInitialMoveList parallelMove
  let st ← performMoves (moves.length + 1) ⟨moves, []⟩
  let ops ← scheduleConstants st.moves st.scheduledOps
  pure (MoveSchedule.from ops)

/-! ## The emitter -/

/-- Executing the operation reads `loc`. -/
def Op.reads (op : Op) (loc : Location) : Bool :=
  op.operands.src == loc || (op.kind == .swap && op.operands.dest == loc)

/-- The operation is a move that overwrites `loc`. -/
def Op.overwrites (op : Op) (loc : Location) : Bool :=
  op.kind == .move && op.operands.dest == loc

/-- `ParallelMoveEmitter::IsScratchLocation`, where `currentMove` is the emitter's field. -/
def isScratchLocation (moveSchedule : MoveSchedule) (currentMove : Nat) (loc : Location) : Bool :=
  !((moveSchedule.drop currentMove).any fun op => op.reads loc) &&
    (moveSchedule.drop (currentMove + 1)).any fun op => op.overwrites loc

end Backend
