import DartSdk.Vm.DataStream

/-!
# The map of catch entry moves

`CatchEntryMovesMapBuilder` of `runtime/vm/code_descriptors.cc` and `CatchEntryMovesMapReader` of
`runtime/vm/exceptions.cc`. An entry of the map has the moves of a pc offset that no entry before it
shares, last move first, and refers to an earlier entry for the others. `intptr_t` has `w` bits.
-/

namespace Vm

structure CatchEntryMove where
  src : Int32
  destAndKind : Int32
  deriving DecidableEq

namespace CatchEntryMove

def writeTo (m : CatchEntryMove) : List UInt8 := write m.src.toInt ++ write m.destAndKind.toInt

def readFrom (bytes : List UInt8) : Except Failure (CatchEntryMove × List UInt8) := do
  let (src, bytes) ← readRaw 32 bytes
  let (destAndKind, bytes) ← readRaw 32 bytes
  return (⟨Int32.ofInt src, Int32.ofInt destAndKind⟩, bytes)

end CatchEntryMove

/-! ## The builder -/

/-- The children of a `TrieNode`, in the order in which they were inserted: each has a move, the
offset of the entry that it was added for, and its own children. -/
inductive Trie where
  | nil
  | node (move : CatchEntryMove) (offset : Int) (children siblings : Trie)

namespace Trie

/-- The offset and the children of the first child with the move. -/
def follow (next : CatchEntryMove) : Trie → Option (Int × Trie)
  | nil => none
  | node move offset children siblings =>
    if move = next then some (offset, children) else follow next siblings

/-- The length of the largest common suffix, and the offset of the last node of its path. The moves
are given from the back. -/
def findSuffix : Trie → Int → List CatchEntryMove → Nat × Int
  | _, offset, [] => (0, offset)
  | children, offset, move :: moves =>
    match follow move children with
    | none => (0, offset)
    | some (offset, children) =>
      let (suffixLength, offset) := findSuffix children offset moves
      (suffixLength + 1, offset)

/-- New nodes, each the only child of the one before. -/
def path (offset : Int) : List CatchEntryMove → Trie
  | [] => nil
  | move :: moves => node move offset (path offset moves) nil

/-- Adds nodes for the moves that are not on a path already. -/
def insert (offset : Int) : Trie → List CatchEntryMove → Trie
  | nil, moves => path offset moves
  | t, [] => t
  | node move offset' children siblings, next :: moves =>
    if move = next then node move offset' (insert offset children moves) siblings
    else node move offset' children (insert offset siblings (next :: moves))

end Trie

structure CatchEntryMovesMapBuilder where
  root : Trie := .nil
  currentPcOffset : Int := 0
  moves : List CatchEntryMove := []
  stream : List UInt8 := []

namespace CatchEntryMovesMapBuilder

/-- `entry_state_offset_` of the root. -/
def rootOffset : Int := -1

variable (b : CatchEntryMovesMapBuilder) (pcOffset : Int)

def newMapping : CatchEntryMovesMapBuilder :=
  { b with moves := [], currentPcOffset := pcOffset }

def append (move : CatchEntryMove) : CatchEntryMovesMapBuilder :=
  { b with moves := b.moves ++ [move] }

def endMapping : CatchEntryMovesMapBuilder :=
  let (suffixLength, suffixOffset) := b.root.findSuffix rootOffset b.moves.reverse
  let length := b.moves.length - suffixLength
  let currentOffset := b.stream.length
  { b with
    root := b.root.insert currentOffset b.moves.reverse
    stream := b.stream ++ (write b.currentPcOffset ++ write length ++ write suffixLength ++
      write suffixOffset ++ (b.moves.take length).reverse.flatMap CatchEntryMove.writeTo) }

def finalizeCatchEntryMovesMap : List UInt8 := b.stream

/-- One mapping: `NewMapping`, an `Append` for each move, and `EndMapping`. -/
def addMapping (mapping : Int × List CatchEntryMove) : CatchEntryMovesMapBuilder :=
  (mapping.2.foldl append (b.newMapping mapping.1)).endMapping

/-- The bytes for a list of mappings. -/
def build (mappings : List (Int × List CatchEntryMove)) : List UInt8 :=
  (mappings.foldl addMapping {}).finalizeCatchEntryMovesMap

end CatchEntryMovesMapBuilder

/-! ## The reader -/

namespace CatchEntryMovesMapReader

/-- Reads moves and drops them. -/
def skipMoves : Nat → List UInt8 → Except Failure (List UInt8)
  | 0, bytes => .ok bytes
  | n + 1, bytes => do
    let (_, bytes) ← CatchEntryMove.readFrom bytes
    skipMoves n bytes

/-- The position of the entry, and the number of its moves. -/
def findEntryForPc (w size : Nat) (pcOffset : Int) :
    Nat → List UInt8 → Except Failure (Nat × Int)
  | 0, _ => .error .diverged
  | fuel + 1, bytes =>
    if bytes.length > 0 then do
      let streamPosition := size - bytes.length
      let (targetPcOffset, bytes) ← readRaw w bytes
      let (prefixLength, bytes) ← readRaw w bytes
      let (suffixLength, bytes) ← readRaw w bytes
      let (_, bytes) ← readRaw w bytes
      if pcOffset = targetPcOffset then return (streamPosition, prefixLength + suffixLength)
      let bytes ← skipMoves prefixLength.toNat bytes
      findEntryForPc w size pcOffset fuel bytes
    else .error .unreachable

/-- `stream->SetPosition`. -/
def setPosition (buffer : List UInt8) (offset : Int) : Except Failure (List UInt8) :=
  if 0 ≤ offset ∧ offset.toNat ≤ buffer.length then .ok (buffer.drop offset.toNat)
  else .error .outOfBounds

/-- Reads moves into the slots before `stop`, from the back. -/
def readPrefix : Nat → Nat → List UInt8 → List (Option CatchEntryMove) →
    Except Failure (List (Option CatchEntryMove))
  | 0, _, _, moves => .ok moves
  | n + 1, stop, bytes, moves => do
    let (move, bytes) ← CatchEntryMove.readFrom bytes
    if stop - 1 < moves.length then
      readPrefix n (stop - 1) bytes (moves.set (stop - 1) (some move))
    else .error .outOfBounds

/-- The loop of `ReadCompressedCatchEntryMovesSuffix`. -/
def readSuffixLoop (w : Nat) (buffer : List UInt8) : Nat → Int → Int → Nat →
    List (Option CatchEntryMove) → Except Failure (List (Option CatchEntryMove))
  | 0, _, _, _, _ => .error .diverged
  | fuel + 1, offset, remainingLength, movesOffset, moves =>
    if remainingLength > 0 then do
      let bytes ← setPosition buffer offset
      let (_, bytes) ← readRaw w bytes
      let (_, bytes) ← readRaw w bytes
      let (suffixLength, bytes) ← readRaw w bytes
      let (suffixOffset, bytes) ← readRaw w bytes
      let toRead := remainingLength - suffixLength
      if toRead > 0 then
        let moves ← readPrefix toRead.toNat (movesOffset + toRead.toNat) bytes moves
        readSuffixLoop w buffer fuel suffixOffset (remainingLength - toRead)
          (movesOffset + toRead.toNat) moves
      else readSuffixLoop w buffer fuel suffixOffset remainingLength movesOffset moves
    else .ok moves

/-- The slots of the moves are none as long as nothing was read into them. Each turn but the first
reads a move. -/
def readCompressedCatchEntryMovesSuffix (w : Nat) (buffer : List UInt8) (offset length : Int) :
    Except Failure (List (Option CatchEntryMove)) :=
  readSuffixLoop w buffer (length.toNat + 2) offset length 0 (List.replicate length.toNat none)

def readMovesForPcOffset (w : Nat) (buffer : List UInt8) (pcOffset : Int) :
    Except Failure (List (Option CatchEntryMove)) := do
  let (position, length) ←
    findEntryForPc w buffer.length pcOffset (buffer.length + 1) buffer
  readCompressedCatchEntryMovesSuffix w buffer position length

end CatchEntryMovesMapReader

end Vm
