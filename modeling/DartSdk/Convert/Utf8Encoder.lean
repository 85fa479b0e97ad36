import DartSdk.Lib.Utf16

/-!
# The UTF-8 encoder

`Utf8Encoder`, `_Utf8Encoder` and `_Utf8EncoderSink` of `sdk/lib/convert/utf.dart`. A string is its
list of UTF-16 code units. `_buffer` is the list of its first `_bufferIndex` bytes together with
its size (the bytes after them are never read); a write past the size is a range error, `none`. The
loops run on an argument that bounds the number of their iterations.
-/

namespace Convert

/-! ## Code units -/

def oneByteLimit : Nat := 0x7f
def twoByteLimit : Nat := 0x7ff

def isLeadSurrogate (codeUnit : Nat) : Bool := codeUnit &&& 0xFC00 == 0xD800

def isTailSurrogate (codeUnit : Nat) : Bool := codeUnit &&& 0xFC00 == 0xDC00

def combineSurrogatePair (lead tail : Nat) : Nat :=
  (0x10000 + ((lead &&& 0x3FF) <<< 10)) ||| (tail &&& 0x3FF)

/-- `RangeError.checkValidRange`: the end of the range, `none` when it throws. -/
def checkValidRange (start : Nat) (stop : Option Nat) (length : Nat) : Option Nat :=
  if start > length then none
  else
    match stop with
    | some stop => if start > stop || stop > length then none else some stop
    | none => some length

/-! ## `_Utf8Encoder` -/

/-- `_Utf8Encoder`: the carried lead surrogate (0 for none) and the buffer. -/
structure Utf8Encoder where
  carry : Nat
  buffer : List UInt8
  bufferSize : Nat
  deriving DecidableEq, Repr

namespace Utf8Encoder

def withBufferSize (bufferSize : Nat) : Utf8Encoder := ⟨0, [], bufferSize⟩

variable (e : Utf8Encoder) (byte : Nat)

/-- `_buffer[_bufferIndex++] = byte`. -/
def write : Option Utf8Encoder :=
  if e.buffer.length < e.bufferSize then some { e with buffer := e.buffer ++ [UInt8.ofNat byte] }
  else none

def writeReplacementCharacter : Option Utf8Encoder := do
  let e ← e.write 0xEF
  let e ← e.write 0xBF
  e.write 0xBD

/-- `_writeSurrogate`: whether `nextCodeUnit` was combined with `leadingSurrogate`. -/
def writeSurrogate (leadingSurrogate nextCodeUnit : Nat) : Option (Bool × Utf8Encoder) :=
  if isTailSurrogate nextCodeUnit then do
    let rune := combineSurrogatePair leadingSurrogate nextCodeUnit
    let e ← e.write (0xF0 ||| (rune >>> 18))
    let e ← e.write (0x80 ||| ((rune >>> 12) &&& 0x3f))
    let e ← e.write (0x80 ||| ((rune >>> 6) &&& 0x3f))
    let e ← e.write (0x80 ||| (rune &&& 0x3f))
    pure (true, e)
  else do
    let e ← e.writeReplacementCharacter
    pure (false, e)

/-- One iteration of `_fillBuffer`'s loop: the next index, `none` inside when the character does
not fit the buffer. -/
def fillStep (str : List UInt16) (stringIndex : Nat) : Option (Option (Nat × Utf8Encoder)) := do
  let codeUnit := (← str[stringIndex]?).toNat
  let bufferIndex := e.buffer.length
  if codeUnit ≤ oneByteLimit then
    if bufferIndex ≥ e.bufferSize then return none
    let e ← e.write codeUnit
    return some (stringIndex + 1, e)
  else if isLeadSurrogate codeUnit then
    if bufferIndex + 4 > e.bufferSize then return none
    let nextCodeUnit := (← str[stringIndex + 1]?).toNat
    let (wasCombined, e) ← e.writeSurrogate codeUnit nextCodeUnit
    return some (if wasCombined then stringIndex + 2 else stringIndex + 1, e)
  else if isTailSurrogate codeUnit then
    if bufferIndex + 3 > e.bufferSize then return none
    let e ← e.writeReplacementCharacter
    return some (stringIndex + 1, e)
  else
    let rune := codeUnit
    if rune ≤ twoByteLimit then
      if bufferIndex + 1 ≥ e.bufferSize then return none
      let e ← e.write (0xC0 ||| (rune >>> 6))
      let e ← e.write (0x80 ||| (rune &&& 0x3f))
      return some (stringIndex + 1, e)
    else
      if bufferIndex + 2 ≥ e.bufferSize then return none
      let e ← e.write (0xE0 ||| (rune >>> 12))
      let e ← e.write (0x80 ||| ((rune >>> 6) &&& 0x3f))
      let e ← e.write (0x80 ||| (rune &&& 0x3f))
      return some (stringIndex + 1, e)

/-- The loop of `_fillBuffer`. -/
def fillLoop (str : List UInt16) (stop : Nat) : Nat → Nat → Utf8Encoder → Option (Nat × Utf8Encoder)
  | 0, stringIndex, e => some (stringIndex, e)
  | n + 1, stringIndex, e =>
    if stringIndex < stop then do
      match ← e.fillStep str stringIndex with
      | none => pure (stringIndex, e)
      | some (stringIndex, e) => fillLoop str stop n stringIndex e
    else some (stringIndex, e)

/-- `_fillBuffer`: the index of the first code unit that is not encoded. -/
def fillBuffer (str : List UInt16) (start stop : Nat) : Option (Nat × Utf8Encoder) := do
  if start ≠ stop then
    let last := (← str[stop - 1]?).toNat
    let stop := if isLeadSurrogate last then stop - 1 else stop
    fillLoop str stop (stop - start) start e
  else
    fillLoop str stop (stop - start) start e

end Utf8Encoder

/-- `Utf8Encoder.convert`. -/
def utf8Convert (string : List UInt16) (start : Nat) (stop : Option Nat) : Option (List UInt8) := do
  let stop ← checkValidRange start stop string.length
  let length := stop - start
  if length = 0 then return []
  let encoder := Utf8Encoder.withBufferSize (length * 3)
  let (endPosition, encoder) ← encoder.fillBuffer string start stop
  if endPosition ≠ stop then
    let encoder ← encoder.writeReplacementCharacter
    return encoder.buffer
  else
    return encoder.buffer

/-! ## `_Utf8EncoderSink` -/

/-- A call on the target sink. -/
inductive ByteSinkEvent
  | addSlice (bytes : List UInt8) (isLast : Bool)
  | close
  deriving DecidableEq, Repr

/-- `_Utf8EncoderSink`: the encoder and the calls made on the target sink. -/
structure Utf8EncoderSink where
  encoder : Utf8Encoder
  sink : List ByteSinkEvent
  deriving DecidableEq, Repr

namespace Utf8EncoderSink

/-- A new sink, with the default buffer. -/
def create : Utf8EncoderSink := ⟨Utf8Encoder.withBufferSize 1024, []⟩

variable (s : Utf8EncoderSink) (str : List UInt16) (start stop : Nat)

/-- The start of `addSlice`: flush the carry, combined with the slice's first code unit when that
is its tail. -/
def flushCarry : Option (Nat × Utf8EncoderSink) := do
  if s.encoder.carry ≠ 0 then
    let nextCodeUnit ← if start ≠ stop then (·.toNat) <$> str[start]? else pure 0
    let (wasCombined, e) ← s.encoder.writeSurrogate s.encoder.carry nextCodeUnit
    let start := if wasCombined then start + 1 else start
    return (start, { s with encoder := { e with carry := 0 } })
  else
    return (start, s)

/-- A lead surrogate that ends the slice: the replacement character when the slice is the last
one and it fits, else the new carry. -/
def endSurrogate (e : Utf8Encoder) (str : List UInt16) (start stop : Nat) (isLast : Bool) :
    Option (Nat × Utf8Encoder) := do
  if start + 1 = stop then
    let codeUnit := (← str[start]?).toNat
    if isLeadSurrogate codeUnit then
      if isLast && e.buffer.length + 3 < e.bufferSize then
        let e ← e.writeReplacementCharacter
        return (start + 1, e)
      else
        return (start + 1, { e with carry := codeUnit })
    else return (start, e)
  else return (start, e)

/-- The `do`-`while` loop of `addSlice`. -/
def addLoop (str : List UInt16) (stop : Nat) (isLast : Bool) :
    Nat → Nat → Utf8EncoderSink → Option Utf8EncoderSink
  | 0, _, _ => none
  | n + 1, start, s => do
    let (start, e) ← s.encoder.fillBuffer str start stop
    let isLastSlice := isLast && start == stop
    let (start, e) ← endSurrogate e str start stop isLast
    let s : Utf8EncoderSink :=
      { encoder := { e with buffer := [] }, sink := s.sink ++ [.addSlice e.buffer isLastSlice] }
    if start < stop then addLoop str stop isLast n start s else pure s

/-- `addSlice` up to its last statement, which closes the sink after the last slice. -/
def addSliceOpen (isLast : Bool) : Option Utf8EncoderSink := do
  let s := { s with encoder := { s.encoder with buffer := [] } }
  if start = stop && !isLast then return s
  let (start, s) ← s.flushCarry str start stop
  addLoop str stop isLast (stop - start + 1) start s

/-- `close`, calling `addSlice` on the empty string (which calls `close` again) for the carry. -/
def close : Nat → Utf8EncoderSink → Option Utf8EncoderSink
  | 0, _ => none
  | n + 1, s =>
    if s.encoder.carry ≠ 0 then do
      let s ← s.addSliceOpen [] 0 0 true
      close n s
    else some { s with sink := s.sink ++ [.close] }

def addSlice (isLast : Bool) : Option Utf8EncoderSink := do
  let s ← s.addSliceOpen str start stop isLast
  if isLast then close 2 s else pure s

end Utf8EncoderSink

/-- A slice of a string, as given to `addSlice`. -/
structure StringSlice where
  str : List UInt16
  start : Nat
  stop : Nat
  start_le : start ≤ stop
  stop_le : stop ≤ str.length

/-- The code units of a slice. -/
def StringSlice.units (c : StringSlice) : List UInt16 := (c.str.take c.stop).drop c.start

/-- The slices one after another, none of them marked as the last. -/
def addSlices : List StringSlice → Utf8EncoderSink → Option Utf8EncoderSink
  | [], s => some s
  | c :: cs, s => do
    let s ← s.addSlice c.str c.start c.stop false
    addSlices cs s

/-- The slices, then `close`. -/
def encodeChunked (cs : List StringSlice) : Option Utf8EncoderSink := do
  let s ← addSlices cs Utf8EncoderSink.create
  Utf8EncoderSink.close 2 s

/-- The slices, the last of them marked as such: `addSlice` then closes the sink itself. -/
def encodeChunkedLast (cs : List StringSlice) (c : StringSlice) : Option Utf8EncoderSink := do
  let s ← addSlices cs Utf8EncoderSink.create
  s.addSlice c.str c.start c.stop true

/-- The bytes given to the target sink. -/
def emitted (events : List ByteSinkEvent) : List UInt8 :=
  events.flatMap fun
    | .addSlice bytes _ => bytes
    | .close => []

end Convert
