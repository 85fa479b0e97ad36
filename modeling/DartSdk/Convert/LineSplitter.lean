import DartSdk.Convert.Utf8Encoder
import DartSdk.Lib.Slices

/-!
# The line splitter

`LineSplitter`, `_LineSplitterSink` and `_LineSplitIterator` of `sdk/lib/convert/line_splitter.dart`.
A string is its list of code units. A loop over the indices of a range takes the code units that it
has still to read beside its index. `none` is an error: a null check or a range check that fails.
-/

namespace Convert

open Slices

abbrev charCR : UInt16 := 0x0D
abbrev charLF : UInt16 := 0x0A

/-- The loop that `convert` and `_addLines` both have, over the code units `rest` of `data` from
index `i` on: `add` is what they do with a line. The start of the last slice, the last code unit and
the state after the loop. -/
def lineLoop {σ : Type} (data : List UInt16) (add : σ → List UInt16 → Option σ) :
    List UInt16 → Nat → Nat → UInt16 → σ → Option (Nat × UInt16 × σ)
  | [], _, sliceStart, char, s => some (sliceStart, char, s)
  | char :: rest, i, sliceStart, previousChar, s =>
    if char ≠ charCR ∧ char ≠ charLF then lineLoop data add rest (i + 1) sliceStart char s
    else if char ≠ charCR ∧ previousChar = charCR then
      lineLoop data add rest (i + 1) (i + 1) char s
    else do
      let s ← add s (slice data sliceStart i)
      lineLoop data add rest (i + 1) (i + 1) char s

/-- `LineSplitter.convert`. -/
def lineSplitterConvert (data : List UInt16) : Option (List (List UInt16)) := do
  let (sliceStart, _, lines) ← lineLoop data (fun lines line => some (lines ++ [line])) data 0 0 0 []
  if sliceStart < data.length then return lines ++ [slice data sliceStart data.length]
  else return lines

/-! ## `_LineSplitterSink` -/

/-- A call on the target sink. -/
inductive StringSinkEvent
  | add (str : List UInt16)
  | close
  deriving DecidableEq, Repr

/-- `_LineSplitterSink`, with the calls made on the target sink. -/
structure LineSplitterSink where
  carry : Option (List UInt16) := none
  multiCarry : Option (List UInt16) := none
  skipLeadingLF : Bool := false
  sink : List StringSinkEvent := []
  deriving DecidableEq, Repr

namespace LineSplitterSink

/-- `_addCarry`. -/
def addCarry (s : LineSplitterSink) (existingCarry newCarry : List UInt16) : LineSplitterSink :=
  let multiCarry := s.multiCarry.getD []
  if existingCarry ≠ [] then
    { s with carry := some [], multiCarry := some (multiCarry ++ existingCarry ++ newCarry) }
  else { s with multiCarry := some (multiCarry ++ newCarry) }

/-- `_useCarry`. -/
def useCarry (s : LineSplitterSink) (carry continuation : List UInt16) :
    Option (List UInt16 × LineSplitterSink) := do
  let s := { s with carry := none }
  if carry ≠ [] then return (carry ++ continuation, s)
  let multiCarry ← s.multiCarry
  return (multiCarry ++ continuation, { s with multiCarry := some [] })

/-- A line of `_addLines`, with the carry before it. The local `carry` is always the field. -/
def addLine (s : LineSplitterSink) (slice : List UInt16) : Option LineSplitterSink := do
  let (slice, s) ← match s.carry with
    | some carry => s.useCarry carry slice
    | none => pure (slice, s)
  return { s with sink := s.sink ++ [.add slice] }

/-- `_addLines`. -/
def addLines (s : LineSplitterSink) (lines : List UInt16) (start stop : Nat) (isLast : Bool) :
    Option LineSplitterSink := do
  let (sliceStart, char, s) ← lineLoop lines addLine (slice lines start stop) start start 0 s
  if sliceStart < stop then
    let endSlice := slice lines sliceStart stop
    if isLast then s.addLine endSlice
    else
      match s.carry with
      | none => return { s with carry := some endSlice }
      | some carry => return s.addCarry carry endSlice
  else return { s with skipLeadingLF := char = charCR }

def close (s : LineSplitterSink) : Option LineSplitterSink := do
  let s ← match s.carry with
    | some _ => s.addLine []
    | none => pure s
  return { s with sink := s.sink ++ [.close] }

def addSlice (s : LineSplitterSink) (chunk : List UInt16) (start stop : Nat) (isLast : Bool) :
    Option LineSplitterSink := do
  let stop ← checkValidRange start (some stop) chunk.length
  let s ← if start < stop then
      if s.skipLeadingLF then
        let start := if (← chunk[start]?) = charLF then start + 1 else start
        addLines { s with skipLeadingLF := false } chunk start stop isLast
      else s.addLines chunk start stop isLast
    else pure s
  if isLast then s.close else pure s

/-- The slices one after another, then `close` or a last slice. `add` is `addSlice` of a whole
string. -/
def addAll (slices : List StringSlice) (last : Option StringSlice) : Option LineSplitterSink := do
  let s ← slices.foldlM (fun s c => addSlice s c.str c.start c.stop false) {}
  match last with
  | none => close s
  | some c => addSlice s c.str c.start c.stop true

end LineSplitterSink

/-! ## `_LineSplitIterator` -/

/-- `_LineSplitIterator`, where `_lineEnd` is `none` for -1. -/
structure LineSplitIterator where
  source : List UInt16
  stop : Nat
  start : Nat
  lineStart : Nat := 0
  lineEnd : Option Nat := none
  deriving DecidableEq, Repr

namespace LineSplitIterator

/-- The loop of `moveNext`: the end of the line and the length of its terminator. -/
def eolLoop : List UInt16 → Nat → Option (Nat × Nat)
  | [], _ => none
  | char :: rest, i =>
    if char ≠ charCR then
      if char ≠ charLF then eolLoop rest (i + 1) else some (i, 1)
    else if rest.head? = some charLF then some (i, 2) else some (i, 1)

def moveNext (it : LineSplitIterator) : Bool × LineSplitIterator :=
  let it := { it with lineStart := it.start, lineEnd := none }
  match eolLoop (slice it.source it.start it.stop) it.start with
  | some (i, eolLength) => (true, { it with lineEnd := some i, start := i + eolLength })
  | none =>
    if it.start < it.stop then (true, { it with lineEnd := some it.stop, start := it.stop })
    else (false, { it with start := it.stop })

def current (it : LineSplitIterator) : Option (List UInt16) :=
  it.lineEnd.map (slice it.source it.lineStart)

/-- The elements that `moveNext` and `current` give, when these are fewer than `fuel`. -/
def elements : Nat → LineSplitIterator → Option (List (List UInt16))
  | 0, _ => none
  | fuel + 1, it =>
    match it.moveNext with
    | (false, _) => some []
    | (true, it) => do return (← it.current) :: (← elements fuel it)

end LineSplitIterator

/-- `LineSplitter.split`. -/
def lineSplitterSplit (lines : List UInt16) (start : Nat) (stop : Option Nat) :
    Option LineSplitIterator := do
  let stop ← checkValidRange start stop lines.length
  return { source := lines, stop, start }

end Convert
