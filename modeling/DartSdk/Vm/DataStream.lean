import Mathlib.Tactic.Ring

/-!
# Streams of bytes

`runtime/vm/datastream.h`. A stream that is written is the list of its bytes, one that is read is
the list of the bytes that remain. Seven bits of a number stand in a byte; the signed and unsigned
encodings mark the last byte, `LEB128` all others. A signed number is an `Int`; what a read computes
in an unsigned type of `w` bits is a `Nat` modulo `2 ^ w`.
-/

namespace Vm

inductive Failure where
  /-- A byte was read at the end of the stream. -/
  | endOfStream
  /-- A number has more bytes than its type. -/
  | tooLong
  | unreachable
  | outOfBounds
  /-- An assertion about an argument failed. -/
  | argument
  /-- A fatal error about the size of an object. -/
  | fatal
  | diverged
  deriving DecidableEq, Repr

def kDataBitsPerByte : Nat := 7

def kMinDataPerByte : Int := -64

def kMaxDataPerByte : Int := 63

def kMaxUnsignedDataPerByte : Nat := 127

def kEndByteMarker : Nat := 192

/-- `BaseWriteStream::Write`, which `Raw<N, T>::Write` calls. -/
def write (v : Int) : List UInt8 :=
  if v < kMinDataPerByte ∨ v > kMaxDataPerByte then
    UInt8.ofNat (v % 2 ^ kDataBitsPerByte).toNat :: write (v / 2 ^ kDataBitsPerByte)
  else [UInt8.ofNat (v + kEndByteMarker).toNat]
termination_by v.natAbs
decreasing_by
  simp only [kMinDataPerByte, kMaxDataPerByte, kDataBitsPerByte] at *
  omega

/-- The bytes of a number from bit `s` on. The unrolled loops of `Read16`, `Read32` and `Read64` end
with the last byte that fits, `Read` does not. -/
def readFrom (unrolled : Bool) (w r s : Nat) : List UInt8 → Except Failure (Nat × List UInt8)
  | [] => .error .endOfStream
  | b :: bytes =>
    if b.toNat > kMaxUnsignedDataPerByte then
      .ok (r ||| (((b.toNat + (2 ^ w - kEndByteMarker)) % 2 ^ w) <<< s) % 2 ^ w, bytes)
    else if unrolled && decide (w ≤ s + kDataBitsPerByte) then .error .tooLong
    else readFrom unrolled w (r ||| (b.toNat <<< s) % 2 ^ w) (s + kDataBitsPerByte) bytes

/-- The cast of an unsigned number of `w` bits to a signed one. -/
def toSigned (w n : Nat) : Int := if n < 2 ^ (w - 1) then n else (n : Int) - 2 ^ w

variable (unrolled : Bool) (w : Nat) (bytes : List UInt8)

def readSigned : Except Failure (Int × List UInt8) := do
  let (n, bytes) ← readFrom unrolled w 0 0 bytes
  return (toSigned w n, bytes)

/-- `ReadStream::Raw<w / 8, T>::Read` of a signed type. -/
def readRaw : Except Failure (Int × List UInt8) :=
  readSigned true w bytes

/-- `ReadStream::Read<T>` of a signed type. -/
def read : Except Failure (Int × List UInt8) :=
  readSigned false w bytes

/-- The cast of what was read to a signed type. -/
def castSigned (x : Except Failure (Nat × List UInt8)) : Except Failure (Int × List UInt8) :=
  x.map fun (n, bytes) => (toSigned w n, bytes)

/-! ## Unsigned numbers -/

def kEndUnsignedByteMarker : Nat := 128

/-- `BaseWriteStream::WriteUnsigned`. -/
def writeUnsigned (v : Nat) : List UInt8 :=
  if v > kMaxUnsignedDataPerByte then
    UInt8.ofNat (v % 2 ^ kDataBitsPerByte) :: writeUnsigned (v / 2 ^ kDataBitsPerByte)
  else [UInt8.ofNat (v + kEndUnsignedByteMarker)]
termination_by v
decreasing_by
  simp only [kMaxUnsignedDataPerByte, kDataBitsPerByte] at *
  omega

/-- `Read<T>(kEndUnsignedByteMarker)` from bit `s` on. -/
def readUnsignedFrom (w r s : Nat) : List UInt8 → Except Failure (Nat × List UInt8)
  | [] => .error .endOfStream
  | b :: bytes =>
    if b.toNat > kMaxUnsignedDataPerByte then
      .ok (r ||| ((b.toNat - kEndUnsignedByteMarker) <<< s) % 2 ^ w, bytes)
    else readUnsignedFrom w (r ||| (b.toNat <<< s) % 2 ^ w) (s + kDataBitsPerByte) bytes

/-- `ReadUnsigned` of an unsigned type of `w` bits. -/
def readUnsigned : Except Failure (Nat × List UInt8) :=
  readUnsignedFrom w 0 0 bytes

/-- `WriteRefId`: the groups from the highest one on, the last one marked. -/
def writeRefId (value : Nat) : Except Failure (List UInt8) :=
  if value < 2 ^ 28 then
    .ok ((if value / 2 ^ 21 ≠ 0 then [UInt8.ofNat (value / 2 ^ 21 % 128)] else []) ++
      (if value / 2 ^ 14 ≠ 0 then [UInt8.ofNat (value / 2 ^ 14 % 128)] else []) ++
      (if value / 2 ^ 7 ≠ 0 then [UInt8.ofNat (value / 2 ^ 7 % 128)] else []) ++
      [UInt8.ofNat (value % 128 ||| 128)])
  else .error .argument

/-- The stages of `ReadRefId` that remain. Bytes are signed. -/
def readRefIdFrom : Nat → Int → List UInt8 → Except Failure (Int × List UInt8)
  | 0, _, _ => .error .tooLong
  | _ + 1, _, [] => .error .endOfStream
  | stages + 1, result, b :: bytes =>
    let byte := toSigned 8 b.toNat
    let result := byte + result * 2 ^ 7
    if byte < 0 then .ok (result + 128, bytes) else readRefIdFrom stages result bytes

def readRefId : Except Failure (Int × List UInt8) := readRefIdFrom 4 0 bytes

/-! ## LEB128 -/

def kDataByteMask : Nat := 127

/-- If more data follows a byte, its high bit is set. -/
def kMoreDataMask : Nat := 128

/-- `WriteLEB128`. -/
def writeLEB128 (v : Nat) : List UInt8 :=
  if v / 2 ^ kDataBitsPerByte = 0 then [UInt8.ofNat (v &&& kDataByteMask)]
  else UInt8.ofNat ((v &&& kDataByteMask) ||| kMoreDataMask) :: writeLEB128
    (v / 2 ^ kDataBitsPerByte)
termination_by v
decreasing_by
  simp only [kDataBitsPerByte] at *
  omega

def readLEB128From (w r s : Nat) : List UInt8 → Except Failure (Nat × List UInt8)
  | [] => .error .endOfStream
  | b :: bytes =>
    if s < w then
      if b.toNat &&& kMoreDataMask ≠ 0 then
        readLEB128From w (r ||| ((b.toNat &&& kDataByteMask) <<< s) % 2 ^ w) (s + kDataBitsPerByte)
          bytes
      else .ok (r ||| ((b.toNat &&& kDataByteMask) <<< s) % 2 ^ w, bytes)
    else .error .tooLong

/-- `ReadLEB128` of an unsigned type of `w` bits. -/
def readLEB128 : Except Failure (Nat × List UInt8) :=
  readLEB128From w 0 0 bytes

/-- In the last byte of SLEB128, the high bit of the data is the sign. -/
def kSignMask : Nat := 64

/-- `WriteSLEB128`. A negative remainder stays negative: its sign is extended. -/
def writeSLEB128 (v : Int) : List UInt8 :=
  let part := (v % 2 ^ kDataBitsPerByte).toNat
  let remainder := v / 2 ^ kDataBitsPerByte
  if (v < 0 ∧ remainder = -1 ∧ part &&& kSignMask ≠ 0) ∨
      (0 ≤ v ∧ remainder = 0 ∧ part &&& kSignMask = 0) then [UInt8.ofNat part]
  else UInt8.ofNat (part ||| kMoreDataMask) :: writeSLEB128 remainder
termination_by v.natAbs
decreasing_by
  rename_i h
  have h0 : v ≠ 0 := by rintro rfl; exact h (by decide)
  have h1 : v ≠ -1 := by rintro rfl; exact h (by decide)
  simp only [kDataBitsPerByte]
  omega

def readSLEB128From (w r s : Nat) : List UInt8 → Except Failure (Nat × List UInt8)
  | [] => .error .endOfStream
  | b :: bytes =>
    if s < w then
      let r := r ||| ((b.toNat &&& kDataByteMask) <<< s) % 2 ^ w
      let s := s + kDataBitsPerByte
      if b.toNat &&& kMoreDataMask ≠ 0 then readSLEB128From w r s bytes
      -- The remaining bits of a negative number are set.
      else if b.toNat &&& kSignMask ≠ 0 ∧ s < w then .ok (r ||| (2 ^ w - 2 ^ s), bytes)
      else .ok (r, bytes)
    else .error .tooLong

/-- `ReadSLEB128` of an unsigned type of `w` bits. -/
def readSLEB128 : Except Failure (Nat × List UInt8) :=
  readSLEB128From w 0 0 bytes

end Vm
