import Mathlib.Data.List.Sort
import Mathlib.Tactic.Ring

/-!
# The AOT dispatch table

`runtime/vm/compiler/aot/dispatch_table_generator.cc`. For each selector, a row has an entry for each
concrete class that inherits an implementation, at the offset of the row plus the class id; rows are
shifted against each other so that they share one table. Class ids and offsets are natural numbers,
and `kIllegalCid` is `0`. An access outside of an array and a loop that does not end are errors.
`DispatchTable::kOriginElement` and `kLargestSmallOffset` depend on the architecture and are given.
-/

namespace Aot

/-! ## Intervals -/

structure Interval where
  begin_ : Nat
  end_ : Nat
  deriving DecidableEq, Repr

namespace Interval

def length (i : Interval) : Nat := i.end_ - i.begin_

def withOffset (i : Interval) (offset : Nat) : Interval := ⟨i.begin_ + offset, i.end_ + offset⟩

def containsBeginOf (i other : Interval) : Bool :=
  decide (i.begin_ ≤ other.begin_) && decide (other.begin_ ≤ i.end_)

def containsEndOf (i other : Interval) : Bool :=
  decide (i.begin_ ≤ other.end_) && decide (other.end_ ≤ i.end_)

def contains (i other : Interval) : Bool := i.containsBeginOf other && i.containsEndOf other

def extendToIncludeInterval (i other : Interval) : Interval :=
  ⟨if other.begin_ < i.begin_ then other.begin_ else i.begin_,
    if other.end_ > i.end_ then other.end_ else i.end_⟩

end Interval

/-- `qsort`: a permutation, and sorted if the comparison is a total preorder. -/
structure SortRoutine where
  sort : {α : Type} → (α → α → Int) → List α → List α
  perm : ∀ {α : Type} (compare : α → α → Int) (l : List α), (sort compare l).Perm l
  sorted : ∀ {α : Type} (compare : α → α → Int) (l : List α),
    (∀ a b c, compare a b ≤ 0 → compare b c ≤ 0 → compare a c ≤ 0) →
    (∀ a b, compare a b ≤ 0 ∨ compare b a ≤ 0) →
    (sort compare l).Pairwise fun a b => compare a b ≤ 0

inductive Failure where
  | outOfBounds
  | diverged
  deriving DecidableEq, Repr

/-! ## The program -/

/-- A dynamic function that is not abstract. Its code is none without `HasCode`, and its selector is
none for `kInvalidSelectorId`; the same for its method extractor. -/
structure Function (Code : Type) where
  currentCode : Option Code
  selectorId : Option Nat
  extractorCode : Option Code
  extractorSelectorId : Option Nat

structure Class (Code : Type) where
  isAbstract : Bool
  superClass : Option Nat
  functions : List (Function Code)

structure TableSelector where
  callCount : Nat
  calledOnNull : Bool
  tornOff : Bool

/-- `parent_cids`, of the classes by their ids. -/
def parentCid {Code : Type} (classAt : Nat → Option (Class Code)) (cid : Nat) : Nat :=
  ((classAt cid).bind Class.superClass).getD 0

/-- The class table and the selector map. A class id may belong to no class, and superclasses end
within as many steps as there are class ids. -/
structure Program (Code : Type) where
  numClasses : Nat
  classAt : Nat → Option (Class Code)
  nullCid : Nat
  objectCid : Nat
  selectors : List TableSelector
  classAt_illegal : classAt 0 = none
  classAt_of_le : ∀ {cid}, numClasses ≤ cid → classAt cid = none
  nullCid_pos : 0 < nullCid
  nullCid_lt : nullCid < numClasses
  acyclic : ∀ cid, (parentCid classAt)^[numClasses] cid = 0

variable {Code : Type}

namespace Program

variable (p : Program Code)

def parent (cid : Nat) : Nat := parentCid p.classAt cid

/-- `is_concrete_class`. -/
def isConcreteClass (cid : Nat) : Bool := (p.classAt cid).any fun c => !c.isAbstract

/-- The conversion to `int16_t`. -/
def toInt16 (i : Int) : Int := (i + 2 ^ 15) % 2 ^ 16 - 2 ^ 15

def depthLoop : Nat → Nat → Int → Int
  | 0, _, depth => depth
  | fuel + 1, pcid, depth =>
    if pcid ≠ 0 then depthLoop fuel (p.parent pcid) (toInt16 (depth + 1)) else depth

def cidDepth (cid : Nat) : Int := depthLoop p p.numClasses cid 0

/-- Where the search for `cid` among the superclasses stops. -/
def searchLoop (cid : Nat) : Nat → Nat → Nat
  | 0, pcid => pcid
  | fuel + 1, pcid =>
    if pcid ≠ 0 ∧ pcid ≠ cid then searchLoop cid fuel (p.parent pcid) else pcid

def inRange (cid subCid : Nat) : Bool :=
  cid == searchLoop p cid p.numClasses subCid && p.isConcreteClass subCid

/-- One class id in the search for the ranges of subclasses. The range that has begun is first. -/
def addSubclass (inRange : Nat → Bool) : Nat × List Interval → Nat → Nat × List Interval
  | (start, ranges), subCid =>
    if start = 0 ∧ inRange subCid then (subCid, ranges)
    else if start ≠ 0 ∧ ¬ inRange subCid then (0, ranges ++ [⟨start, subCid⟩])
    else (start, ranges)

/-- `cid_subclass_ranges`. -/
def cidSubclassRanges (cid : Nat) : List Interval :=
  let (start, ranges) :=
    (List.range' 1 (p.numClasses - 1)).foldl (addSubclass (p.inRange cid)) (0, [])
  if start ≠ 0 then ranges ++ [⟨start, p.numClasses⟩] else ranges

def functionsOf (cid : Nat) : List (Function Code) := ((p.classAt cid).map Class.functions).getD []

def tornOff (sid : Nat) : Bool := (p.selectors[sid]?).any TableSelector.tornOff

/-- The code of the functions of a class for a selector: a function, and its method extractor if the
method is torn off. -/
def implementations (sid cid : Nat) : List (Option Code) :=
  (p.functionsOf cid).flatMap fun f =>
    match f.selectorId with
    | none => []
    | some sid' =>
      (if sid' = sid then [f.currentCode] else []) ++
        if p.tornOff sid' ∧ f.extractorSelectorId = some sid then [f.extractorCode] else []

def onNullInterface (sid : Nat) : Bool :=
  (p.functionsOf p.objectCid).any fun f => f.selectorId = some sid

end Program

/-! ## Rows -/

/-- A range of class ids with a function, or none for `nullptr`, and its code. -/
structure CidInterval (Code : Type) where
  cid : Nat
  depth : Int
  range : Interval
  function : Option (Option Code)

structure SelectorRow (Code : Type) where
  selector : Nat
  callCount : Nat
  classRanges : List (CidInterval Code)
  ranges : List Interval
  totalSize : Nat
  /-- `selector_->offset`. -/
  offset : Option Nat

namespace SelectorRow

/-- `IntervalSorter` of `Finalize`. -/
def compareIntervals (a b : Interval) : Int :=
  if a.begin_ ≠ b.begin_ then (a.begin_ : Int) - b.begin_ else (b.length : Int) - a.length

/-- The merging of ranges in place, from `read_index` on. -/
def mergeLoop : Nat → List Interval → Nat → Nat → Nat → Except Failure (List Interval)
  | 0, _, _, _, _ => .error .diverged
  | fuel + 1, ranges, currentIndex, writeIndex, readIndex =>
    if readIndex < ranges.length then
      match ranges[currentIndex]?, ranges[readIndex]? with
      | some currentRange, some nextRange =>
        if currentRange.contains nextRange then
          mergeLoop fuel ranges currentIndex writeIndex (readIndex + 1)
        else if currentRange.end_ = nextRange.begin_ then
          mergeLoop fuel (ranges.set currentIndex (currentRange.extendToIncludeInterval nextRange))
            currentIndex writeIndex (readIndex + 1)
        else
          mergeLoop fuel
            (if readIndex ≠ writeIndex then ranges.set writeIndex nextRange else ranges)
            writeIndex (writeIndex + 1) (readIndex + 1)
      | _, _ => .error .outOfBounds
    else .ok (ranges.take writeIndex)

/-- `Finalize`, of a row with class ranges. -/
def finalize (s : SortRoutine) (row : SelectorRow Code) : Except Failure (SelectorRow Code) := do
  let ranges := s.sort compareIntervals (row.classRanges.map CidInterval.range)
  let ranges ← mergeLoop (ranges.length + 1) ranges 0 1 1
  return { row with ranges, totalSize := (ranges.map Interval.length).sum }

/-- `IntervalSorter` of `FillTable`. -/
def compareDepths (a b : CidInterval Code) : Int := a.depth - b.depth

def setAt (entries : List (Option Code)) (i : Nat) (code : Code) :
    Except Failure (List (Option Code)) :=
  if i < entries.length then .ok (entries.set i (some code)) else .error .outOfBounds

def fillRange (offset : Nat) (entries : List (Option Code)) (cidRange : CidInterval Code) :
    Except Failure (List (Option Code)) :=
  match cidRange.function with
  | some (some code) =>
    (List.range' cidRange.range.begin_ cidRange.range.length).foldlM
      (fun entries cid => setAt entries (offset + cid) code) entries
  | _ => .ok entries

/-- `FillTable`, of a row that has an offset. -/
def fillTable (s : SortRoutine) (entries : List (Option Code)) (row : SelectorRow Code) :
    Except Failure (List (Option Code)) :=
  match row.offset with
  | some offset => (s.sort compareDepths row.classRanges).foldlM (fillRange offset) entries
  | none => .error .outOfBounds

end SelectorRow

/-! ## Fitting rows -/

structure RowFitter where
  freeSlots : List Interval
  firstSlotIndex : Nat

namespace RowFitter

def intMax : Nat := 2 ^ 31 - 1

def empty : RowFitter := ⟨[⟨0, intMax⟩], 0⟩

def slotAt (slots : List Interval) (i : Nat) : Except Failure Interval :=
  match slots[i]? with
  | some slot => .ok slot
  | none => .error .outOfBounds

def moveForwardLoop (slots : List Interval) (range : Interval) : Nat → Nat → Except Failure Nat
  | 0, _ => .error .diverged
  | fuel + 1, slotIndex => do
    let slot ← slotAt slots slotIndex
    if slot.end_ < range.end_ then moveForwardLoop slots range fuel (slotIndex + 1)
    else return slotIndex

def moveForwardToCover (slots : List Interval) (range : Interval) (slotIndex : Nat) :
    Except Failure Nat :=
  moveForwardLoop slots range (slots.length + 1) slotIndex

def fitInFreeSlot (slots : List Interval) (range : Interval) (slotIndex : Nat) :
    Except Failure (List Interval × Nat) := do
  let slot ← slotAt slots slotIndex
  if slot.begin_ < range.begin_ then
    let freeBefore : Interval := ⟨slot.begin_, range.begin_⟩
    if slot.end_ > range.end_ then
      let freeAfter : Interval := ⟨range.end_, slot.end_⟩
      return ((slots.set slotIndex freeBefore).insertIdx (slotIndex + 1) freeAfter, slotIndex)
    else return (slots.set slotIndex freeBefore, slotIndex + 1)
  else if slot.end_ ≤ range.end_ then return (slots.eraseIdx slotIndex, slotIndex)
  else return (slots.set slotIndex ⟨range.end_, slot.end_⟩, slotIndex)

def updateFreeSlots (offset : Nat) : List Interval → List Interval → Nat →
    Except Failure (List Interval)
  | [], slots, _ => .ok slots
  | range :: ranges, slots, slotIndex => do
    let slotIndex ← moveForwardToCover slots (range.withOffset offset) slotIndex
    let (slots, slotIndex) ← fitInFreeSlot slots (range.withOffset offset) slotIndex
    updateFreeSlots offset ranges slots slotIndex

/-- The next offset where the row might fit, or none if it fits. -/
def tryRanges (slots : List Interval) (offset : Nat) : List Interval → Nat →
    Except Failure (Option Nat)
  | [], _ => .ok none
  | range :: ranges, slotIndex => do
    let slotIndex ← moveForwardToCover slots (range.withOffset offset) slotIndex
    let slot ← slotAt slots slotIndex
    if slot.begin_ > (range.withOffset offset).begin_ then
      return some (offset + slot.begin_ - (range.withOffset offset).begin_)
    else tryRanges slots offset ranges slotIndex

/-- The index of the first slot that may cover the first range. -/
def startIndex (fitter : RowFitter) (firstRange : Interval) : Except Failure Nat :=
  if 0 < fitter.firstSlotIndex then do
    let slot ← slotAt fitter.freeSlots (fitter.firstSlotIndex - 1)
    return if slot.end_ ≥ firstRange.end_ then 0 else fitter.firstSlotIndex
  else return fitter.firstSlotIndex

def tryFit (fitter : RowFitter) (ranges : List Interval) (offset : Nat) :
    Except Failure (RowFitter × Option Nat) := do
  let firstRange ← slotAt ranges 0
  let startIndex ← fitter.startIndex (firstRange.withOffset offset)
  let firstSlotIndex ←
    moveForwardToCover fitter.freeSlots (firstRange.withOffset offset) startIndex
  match ← tryRanges fitter.freeSlots offset ranges firstSlotIndex with
  | some nextOffset => return (⟨fitter.freeSlots, firstSlotIndex⟩, some nextOffset)
  | none =>
    let freeSlots ← updateFreeSlots offset ranges fitter.freeSlots firstSlotIndex
    return (⟨freeSlots, firstSlotIndex⟩, none)

/-- The search for an offset up to `maxOffset`. -/
def fitLoop (ranges : List Interval) (maxOffset : Nat) : Nat → RowFitter → Nat →
    Except Failure (RowFitter × Option Nat)
  | 0, _, _ => .error .diverged
  | fuel + 1, fitter, offset =>
    if offset ≤ maxOffset then do
      match ← fitter.tryFit ranges offset with
      | (fitter, none) => return (fitter, some offset)
      | (fitter, some nextOffset) => fitLoop ranges maxOffset fuel fitter nextOffset
    else .ok (fitter, none)

/-- Each try has a larger offset, so there are at most as many as offsets. -/
def fitAndAllocate (fitter : RowFitter) (row : SelectorRow Code)
    (minOffset maxOffset : Nat) : Except Failure (RowFitter × SelectorRow Code) :=
  match row.offset with
  | some _ => .ok (fitter, row)
  | none => do
    let (fitter, offset) ← fitLoop row.ranges maxOffset (maxOffset + 2) fitter minOffset
    return (fitter, { row with offset })

/-- One pass over all rows. -/
def fitAll (minOffset maxOffset : Nat) : RowFitter → List (SelectorRow Code) →
    Except Failure (RowFitter × List (SelectorRow Code))
  | fitter, [] => .ok (fitter, [])
  | fitter, row :: rows => do
    let (fitter, row) ← fitAndAllocate fitter row minOffset maxOffset
    let (fitter, rows) ← fitAll minOffset maxOffset fitter rows
    return (fitter, row :: rows)

def tableSize (fitter : RowFitter) : Except Failure Nat :=
  match fitter.freeSlots.getLast? with
  | some slot => .ok slot.begin_
  | none => .error .outOfBounds

end RowFitter

/-! ## The generator -/

/-- `DispatchTable::kOriginElement` and `DispatchTable::kLargestSmallOffset`. -/
structure Arch where
  originElement : Nat
  largestSmallOffset : Nat
  originElement_le : originElement ≤ RowFitter.intMax
  largestSmallOffset_lt : largestSmallOffset < RowFitter.intMax

namespace DispatchTableGenerator

open RowFitter

variable (p : Program Code) (s : SortRoutine)

/-- The class ranges of a selector. -/
def classRanges (sid : Nat) : List (CidInterval Code) :=
  (if (p.selectors[sid]?).any TableSelector.calledOnNull && !p.onNullInterface sid then
    [⟨p.nullCid, 0, ⟨p.nullCid, p.nullCid + 1⟩, none⟩] else []) ++
  (List.range' 1 (p.numClasses - 1)).flatMap fun cid =>
    (p.implementations sid cid).flatMap fun code =>
      (p.cidSubclassRanges cid).map fun range => ⟨cid, p.cidDepth cid, range, some code⟩

/-- The row of a used selector with implementations. -/
def selectorRow (sid : Nat) : Option (SelectorRow Code) :=
  match p.selectors[sid]? with
  | some selector =>
    if 0 < selector.callCount ∧ (classRanges p sid).length ≠ 0 then
      some ⟨sid, selector.callCount, classRanges p sid, [], 0, none⟩
    else none
  | none => none

def setupSelectorRows : Except Failure (List (SelectorRow Code)) :=
  ((List.range p.selectors.length).filterMap (selectorRow p)).mapM (SelectorRow.finalize s)

/-- Arithmetic in `int32_t`, which wraps around. -/
def toInt32 (i : Int) : Int := (i + 2 ^ 31) % 2 ^ 32 - 2 ^ 31

def comparePopularity (a b : SelectorRow Code) : Int := toInt32 (b.callCount - a.callCount)

/-- The products of large call counts and sizes overflow, so this need not be an order. -/
def comparePopularitySizeRatio (a b : SelectorRow Code) : Int :=
  toInt32 (toInt32 (b.callCount * a.totalSize) - toInt32 (a.callCount * b.totalSize))

def compareSize (a b : SelectorRow Code) : Int := toInt32 (b.totalSize - a.totalSize)

/-- The rows with their offsets, and the size of the table. -/
def computeSelectorOffsets (arch : Arch) (rows : List (SelectorRow Code)) :
    Except Failure (List (SelectorRow Code) × Nat) := do
  let rows := s.sort comparePopularity rows
  let (fitter, rows) ← fitAll arch.originElement arch.originElement empty rows
  let rows := s.sort comparePopularitySizeRatio rows
  let (fitter, rows) ← fitAll 0 arch.largestSmallOffset fitter rows
  let rows := s.sort compareSize rows
  let (fitter, rows) ← fitAll (arch.largestSmallOffset + 1) intMax fitter rows
  let tableSize ← fitter.tableSize
  return (rows, tableSize)

def buildCodeArray (rows : List (SelectorRow Code)) (tableSize : Nat) :
    Except Failure (List (Option Code)) :=
  rows.foldlM (SelectorRow.fillTable s) (List.replicate tableSize none)

/-- `Initialize` and `BuildCodeArray`. -/
def generate (arch : Arch) :
    Except Failure (List (SelectorRow Code) × List (Option Code)) := do
  let rows ← setupSelectorRows p s
  let (rows, tableSize) ← computeSelectorOffsets s arch rows
  let entries ← buildCodeArray s rows tableSize
  return (rows, entries)

end DispatchTableGenerator

end Aot
