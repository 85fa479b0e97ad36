import DartSdk.Vm.DataStream

/-!
# Compressed stack maps

`CompressedStackMaps` and its iterator, of `runtime/vm/object.h`, and
`ProgramVisitor::NormalizeAndDedupCompressedStackMaps` of `runtime/vm/program_visitor.cc`. An entry
of a map has a pc offset and either its bit counts and bits or the offset of these in a global
table. `uintptr_t` has `w` bits. A failed assertion is a `Failure`.
-/

namespace Vm

structure CompressedStackMaps where
  isGlobalTable : Bool
  usesGlobalTable : Bool
  payload : List UInt8
  deriving DecidableEq

namespace CompressedStackMaps

def payloadSize (maps : CompressedStackMaps) : Nat := maps.payload.length

/-- `Object::empty_compressed_stackmaps`. -/
def empty : CompressedStackMaps := ⟨false, false, []⟩

/-- The bits of `SizeField`. -/
def kSizeBits : Nat := 30

/-- `New`, with a fatal error if the size is not valid. -/
def new (payload : List UInt8) (isGlobalTable usesGlobalTable : Bool) :
    Except Failure CompressedStackMaps :=
  if payload.length < 2 ^ kSizeBits then .ok ⟨isGlobalTable, usesGlobalTable, payload⟩
  else .error .fatal

/-! ## The iterator -/

/-- What is stored of an entry besides its pc offset: the counts, and where its bits are. -/
structure EntryInfo where
  spillSlotBitCount : Nat
  nonSpillSlotBitCount : Nat
  bitsOffset : Nat

def EntryInfo.length (e : EntryInfo) : Nat := e.spillSlotBitCount + e.nonSpillSlotBitCount

/-- The bytes of a number of bits. -/
def stackmapSize (bits : Nat) : Nat := (bits + 7) / 8

structure Iterator where
  nextOffset : Nat := 0
  currentPcOffset : Nat := 0
  currentGlobalTableOffset : Nat := 0
  /-- None before the entry is loaded from the global table. -/
  current : Option EntryInfo := none

/-- The iterator's `bits_container_`. -/
def bitsContainer (maps : CompressedStackMaps) (globalTable : Option CompressedStackMaps) :
    Except Failure CompressedStackMaps :=
  if maps.isGlobalTable then .error .argument
  else if maps.usesGlobalTable then
    match globalTable with
    | some table => if table.isGlobalTable then .ok table else .error .argument
    | none => .error .argument
  else .ok maps

variable (w : Nat) (container : CompressedStackMaps) (offset : Nat)

/-- The counts at the offset, which the bits follow. -/
def readEntryInfo : Except Failure EntryInfo := do
  let (spillSlotBitCount, bytes) ← readLEB128 w (container.payload.drop offset)
  let (nonSpillSlotBitCount, bytes) ← readLEB128 w bytes
  -- the counts are not negative as signed numbers
  if spillSlotBitCount < 2 ^ (w - 1) ∧ nonSpillSlotBitCount < 2 ^ (w - 1) ∧
      stackmapSize (spillSlotBitCount + nonSpillSlotBitCount) ≤ bytes.length then
    return ⟨spillSlotBitCount, nonSpillSlotBitCount, container.payloadSize - bytes.length⟩
  else .error .argument

def moveNext (maps container : CompressedStackMaps) (it : Iterator) :
    Except Failure (Option Iterator) :=
  if maps.payloadSize ≤ it.nextOffset then .ok none
  else do
    let (pcDelta, bytes) ← readLEB128 w (maps.payload.drop it.nextOffset)
    if 2 ^ 32 - 1 - it.currentPcOffset < pcDelta then .error .argument
    else if maps.usesGlobalTable then
      let (tableOffset, bytes) ← readLEB128 w bytes
      if tableOffset < container.payloadSize then
        return some {
          nextOffset := maps.payloadSize - bytes.length
          currentPcOffset := it.currentPcOffset + pcDelta
          currentGlobalTableOffset := tableOffset
          current := none }
      else .error .argument
    else
      let entry ← readEntryInfo w maps (maps.payloadSize - bytes.length)
      return some { it with
        nextOffset := entry.bitsOffset + stackmapSize entry.length
        currentPcOffset := it.currentPcOffset + pcDelta
        current := some entry }

/-- `EnsureFullyLoadedEntry`. -/
def ensureFullyLoadedEntry (it : Iterator) : Except Failure EntryInfo :=
  match it.current with
  | some entry => .ok entry
  | none =>
    if it.currentGlobalTableOffset < container.payloadSize then
      readEntryInfo w container it.currentGlobalTableOffset
    else .error .argument

/-- The entries that the iterator goes through, with their pc offsets. -/
def iterate (w : Nat) (maps container : CompressedStackMaps) :
    Nat → Iterator → Except Failure (List (Nat × EntryInfo))
  | 0, _ => .error .diverged
  | fuel + 1, it => do
    match ← moveNext w maps container it with
    | none => return []
    | some it =>
      let entry ← ensureFullyLoadedEntry w container it
      let entries ← iterate w maps container fuel it
      return (it.currentPcOffset, entry) :: entries

def isObject (entry : EntryInfo) (bitIndex : Nat) : Bool :=
  (container.payload.getD (entry.bitsOffset + bitIndex / 8) 0).toNat.testBit (bitIndex % 8)

/-- What a client of the iterator sees of an entry. -/
structure Observation where
  pcOffset : Nat
  spillSlotBitCount : Nat
  length : Nat
  bits : List Bool
  deriving DecidableEq

def observe (pcOffset : Nat) (entry : EntryInfo) : Observation where
  pcOffset := pcOffset
  spillSlotBitCount := entry.spillSlotBitCount
  length := entry.length
  bits := (List.range entry.length).map (isObject container entry)

/-- The map decoded against the global table. -/
def decode (maps : CompressedStackMaps) (globalTable : Option CompressedStackMaps) :
    Except Failure (List Observation) := do
  let container ← bitsContainer maps globalTable
  let entries ← iterate w maps container (maps.payloadSize + 1) {}
  return entries.map fun e => observe container e.1 e.2

end CompressedStackMaps

open CompressedStackMaps

/-! ## Collecting entries -/

/-- The bytes are those that `PayloadData` points to. -/
structure StackMapEntry where
  spillSlotBitCount : Nat
  nonSpillSlotBitCount : Nat
  payload : List UInt8
  deriving DecidableEq

namespace StackMapEntry

def ofIterator (container : CompressedStackMaps) (entry : EntryInfo) : StackMapEntry where
  spillSlotBitCount := entry.spillSlotBitCount
  nonSpillSlotBitCount := entry.nonSpillSlotBitCount
  payload := (container.payload.drop entry.bitsOffset).take (stackmapSize entry.length)

def encode (e : StackMapEntry) : List UInt8 :=
  writeLEB128 e.spillSlotBitCount ++ writeLEB128 e.nonSpillSlotBitCount ++ e.payload

end StackMapEntry

/-- The entries of a map, with their pc offsets. -/
def stackMapEntries (w : Nat) (globalTable : Option CompressedStackMaps)
    (maps : CompressedStackMaps) : Except Failure (List (Nat × StackMapEntry)) := do
  let container ← bitsContainer maps globalTable
  let entries ← iterate w maps container (maps.payloadSize + 1) {}
  return entries.map fun e => (e.1, StackMapEntry.ofIterator container e.2)

/-- A collected entry with its usage count. -/
abbrev Collected := StackMapEntry × Nat

/-- An entry that is equal to a collected one is counted, a new one is added. -/
def collectEntry (collected : List Collected) (entry : StackMapEntry) : List Collected :=
  if entry ∈ collected.map Prod.fst then
    collected.map fun c => if c.1 = entry then (c.1, c.2 + 1) else c
  else collected ++ [(entry, 1)]

variable (w : Nat) (oldGlobalTable : Option CompressedStackMaps) (collected : List Collected)

/-- `CollectStackMapEntriesVisitor::VisitCode`. -/
def collectCode (maps : CompressedStackMaps) : Except Failure (List Collected) := do
  let entries ← stackMapEntries w oldGlobalTable maps
  return (entries.map Prod.snd).foldl collectEntry collected

/-- The comparison of the sort: from most used to least used. -/
def compareUsage (e₁ e₂ : Collected) : Int := e₂.2 - e₁.2

/-- The entries with their offsets, and the bytes of the table. -/
def encodeEntries : List (StackMapEntry × Nat) × List UInt8 :=
  collected.foldl (fun (offsets, stream) c =>
    (offsets ++ [(c.1, stream.length)], stream ++ c.1.encode)) ([], [])

/-- `CreateGlobalTable`. -/
def createGlobalTable (sort : List Collected → List Collected) (collected : List Collected) :
    Except Failure (Option CompressedStackMaps × List (StackMapEntry × Nat)) :=
  if collected.length = 0 then .ok (none, [])
  else do
    let (offsets, stream) := encodeEntries (sort collected)
    let table ← CompressedStackMaps.new stream true false
    return (some table, offsets)

/-! ## Normalizing maps -/

variable (offsets : List (StackMapEntry × Nat)) (entry : StackMapEntry)

def lookupOffset : Except Failure Nat :=
  match offsets.find? fun o => o.1 = entry with
  | some o => .ok o.2
  | none => .error .outOfBounds

/-- The entries as deltas and offsets. -/
def encodeOffsets (offsets : List (StackMapEntry × Nat)) :
    Nat → List (Nat × StackMapEntry) → Except Failure (List UInt8)
  | _, [] => .ok []
  | lastOffset, (pcOffset, entry) :: entries => do
    let entryOffset ← lookupOffset offsets entry
    let rest ← encodeOffsets offsets pcOffset entries
    return writeLEB128 (pcOffset - lastOffset) ++ writeLEB128 entryOffset ++ rest

def normalizeEntries (maps : CompressedStackMaps) : Except Failure CompressedStackMaps :=
  if maps.payloadSize = 0 then .ok .empty
  else do
    let entries ← stackMapEntries w oldGlobalTable maps
    let newPayload ← encodeOffsets offsets 0 entries
    CompressedStackMaps.new newPayload false true

/-- `NormalizeAndDedupCompressedStackMapsVisitor::VisitCode`, with the canonical maps and the maps
of the codes visited before. The first lookup does not know which table the map refers to. -/
def visitCode
    (s : List CompressedStackMaps × List CompressedStackMaps) (maps : CompressedStackMaps) :
    Except Failure (List CompressedStackMaps × List CompressedStackMaps) :=
  if maps ∈ s.1 then .ok (s.1, s.2 ++ [maps])
  else do
    let maps ← normalizeEntries w oldGlobalTable offsets maps
    if maps ∈ s.1 then return (s.1, s.2 ++ [maps])
    else return (s.1 ++ [maps], s.2 ++ [maps])

/-- The new global table, with the offsets of the entries of all maps. -/
def collectTable (sort : List Collected → List Collected)
    (oldGlobalTable : Option CompressedStackMaps) (codes : List CompressedStackMaps) :
    Except Failure (Option CompressedStackMaps × List (StackMapEntry × Nat)) := do
  let collected ← codes.foldlM (collectCode w oldGlobalTable) []
  createGlobalTable sort collected

/-- `NormalizeAndDedupCompressedStackMaps`: the new maps of the codes and the new global table. -/
def normalizeAndDedup (sort : List Collected → List Collected)
    (oldGlobalTable : Option CompressedStackMaps) (codes : List CompressedStackMaps) :
    Except Failure (List CompressedStackMaps × Option CompressedStackMaps) := do
  let (newGlobalTable, offsets) ← collectTable w sort oldGlobalTable codes
  let s ← codes.foldlM (visitCode w oldGlobalTable offsets) ([], [])
  return (s.2, newGlobalTable)

end Vm
