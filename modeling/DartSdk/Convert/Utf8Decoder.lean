import DartSdk.Convert.Utf8Encoder

/-!
# The UTF-8 decoder

`_Utf8Decoder`: the state machine and `decodeGeneral` of `sdk/lib/convert/utf.dart`, and the faster
decoders of the VM in `sdk/lib/_internal/vm/lib/convert_patch.dart`.

Text is a list of UTF-16 code units. A string that the VM allocates has content that is not
initialized, which is `none`; it becomes text when every code unit was written. Reads and writes
outside of lists and strings are range errors, and the assertions are checked. The loops run on an
argument that bounds the number of their iterations.
-/

namespace Convert

/-- What a decoder may end with. -/
inductive DecodeError where
  | formatException (message : String) (offset : Option Nat)
  | rangeError
  | assertionError
  | uninitialized
  | outOfFuel
  deriving DecidableEq, Repr

/-- UTF-16 code units. -/
abbrev Text := List UInt16

/-- `table.codeUnitAt(i)`. -/
def codeUnitAt (table : List Nat) (i : Nat) : Except DecodeError Nat :=
  match table[i]? with
  | some t => .ok t
  | none => .error .rangeError

/-- `bytes[i]`. -/
def byteAt (bytes : List UInt8) (i : Nat) : Except DecodeError Nat :=
  match bytes[i]? with
  | some b => .ok b.toNat
  | none => .error .rangeError

def check (condition : Bool) : Except DecodeError Unit :=
  if condition then .ok () else .error .assertionError

/-! ## Strings -/

/-- `allocateOneByteString` and `allocateTwoByteString`. -/
def allocateString (size : Nat) : List (Option UInt16) := List.replicate size none

def writeIntoString (string : List (Option UInt16)) (index : Nat) (unit : UInt16) :
    Except DecodeError (List (Option UInt16)) :=
  if index < string.length then .ok (string.set index (some unit)) else .error .rangeError

/-- `writeIntoOneByteString`: the low 8 bits are written. -/
def writeIntoOneByteString (string : List (Option UInt16)) (index codePoint : Nat) :
    Except DecodeError (List (Option UInt16)) :=
  writeIntoString string index (UInt16.ofNat (codePoint &&& 0xFF))

/-- `writeIntoTwoByteString`: the low 16 bits are written. -/
def writeIntoTwoByteString (string : List (Option UInt16)) (index codePoint : Nat) :
    Except DecodeError (List (Option UInt16)) :=
  writeIntoString string index (UInt16.ofNat codePoint)

/-- The string is read. -/
def readString (string : List (Option UInt16)) : Except DecodeError Text :=
  match string.mapM id with
  | some text => .ok text
  | none => .error .uninitialized

/-- `StringBuffer.writeCharCode`. -/
def writeCharCode (buffer : Text) (charCode : Nat) : Except DecodeError Text :=
  if charCode ≤ 0xFFFF then .ok (buffer ++ [UInt16.ofNat charCode])
  else if charCode > 0x10FFFF then .error .rangeError
  else
    let bits := charCode - 0x10000
    .ok (buffer ++
      [UInt16.ofNat (0xD800 ||| (bits >>> 10)), UInt16.ofNat (0xDC00 ||| (bits &&& 0x3FF))])

def unicodeReplacementCharacterRune : Nat := 0xFFFD

/-! ## The input -/

/-- The argument of a conversion: a `Uint8List` or another list of integers. -/
inductive CodeUnits where
  | uint8List (bytes : List UInt8)
  | list (codeUnits : List Int)
  deriving DecidableEq, Repr

def CodeUnits.length : CodeUnits → Nat
  | uint8List bytes => bytes.length
  | list codeUnits => codeUnits.length

/-- `_makeUint8List`: invalid byte values are replaced by FF, which is also invalid. -/
def makeUint8List (codeUnits : List Int) (start stop : Nat) : List UInt8 :=
  ((codeUnits.drop start).take (stop - start)).map fun b =>
    if 0 ≤ b ∧ b ≤ 0xFF then UInt8.ofNat b.toNat else 0xFF

/-- The bytes, the error offset, the start and the end, as the conversions begin. -/
def haveBytes (codeUnits : CodeUnits) (start stop : Nat) : List UInt8 × Nat × Nat × Nat :=
  match codeUnits with
  | .uint8List bytes => (bytes, 0, start, stop)
  | .list codeUnits => (makeUint8List codeUnits start stop, start, 0, stop - start)

/-! ## The state machine -/

structure Utf8Decoder where
  allowMalformed : Bool
  state : Nat
  charOrIndex : Nat
  scanFlags : Nat
  bomIndex : Int
  deriving DecidableEq, Repr

namespace Utf8Decoder

def typeMask : Nat := 0x1F
def shiftedByteMask : Nat := 0xF0FE

/-- The types of the bytes. -/
def typeTable : List Nat :=
  (List.replicate 0x80 'A' ++                                                        -- 00-7F
    List.replicate 0x10 'F' ++ List.replicate 0x10 'G' ++                            -- 80-9F
    List.replicate 0x1B 'H' ++ ['I'] ++ List.replicate 3 'H' ++ ['J'] ++             -- A0-BF
    List.replicate 2 'E' ++ List.replicate 0x1E 'B' ++                               -- C0-DF
    ['K'] ++ List.replicate 0xC 'C' ++ ['D', 'C', 'L'] ++                            -- E0-EF
    ['O', 'N', 'N', 'N', 'M'] ++ List.replicate 0xB 'E').map Char.toNat              -- F0-FF

/-! States, which are offsets into the transition table, and errors. -/

def IA : Nat := 0x00
def BB : Nat := 0x10
def AB : Nat := 0x20
def X1 : Nat := 0x30
def X2 : Nat := 0x3A
def X3 : Nat := 0x44
def TO : Nat := 0x4E
def TS : Nat := 0x58
def QO : Nat := 0x62
def QR : Nat := 0x6C
def B1 : Nat := 0x76
def B2 : Nat := 0x80
def E1 : Nat := 0x41
def E2 : Nat := 0x43
def E3 : Nat := 0x45
def E4 : Nat := 0x47
def E5 : Nat := 0x49
def E6 : Nat := 0x4B
def E7 : Nat := 0x4D

/-- The next state by state and type. The rows of the states after `AB` have ten entries and overlap
with the beginning of the next one. -/
def transitionTable : List Nat :=
  [0x20,
--  A   B   C   D   E   F   G   H   I   J   K   L   M   N   O
    IA, X1, X2, TS, E3, E2, E2, E2, E2, E2, TO, X2, QR, X3, QO, 0x20, -- IA
    IA, X1, X2, TS, E3, E2, E2, E2, E2, E2, TO, B1, QR, X3, QO, 0x20, -- BB
    IA, X1, X2, TS, E3, E2, E2, E2, E2, E2, TO, X2, QR, X3, QO, 0x20, -- AB
    E1, E1, E1, E1, E1, IA, IA, IA, IA, IA, -- X1
    E1, E1, E1, E1, E1, X1, X1, X1, X1, X1, -- X2
    E1, E1, E1, E1, E1, X2, X2, X2, X2, X2, -- X3
    E1, E1, E1, E1, E1, E4, E4, X1, X1, X1, -- TO
    E1, E1, E1, E1, E1, X1, X1, E6, E6, E6, -- TS
    E1, E1, E1, E1, E1, E4, X2, X2, X2, X2, -- QO
    E1, E1, E1, E1, E1, X2, E5, E5, E5, E5, -- QR
    E1, E1, E1, E1, E1, X1, X1, X1, B2, X1, -- B1
    E1, E1, E1, E1, E1, IA, IA, IA, IA, AB, E1, E1, E1, E1, E1] -- B2

abbrev initial : Nat := IA
abbrev accept : Nat := IA
abbrev beforeBom : Nat := BB
abbrev afterBom : Nat := AB
abbrev errorMissingExtension : Nat := E1
abbrev errorUnexpectedExtension : Nat := E2
abbrev errorInvalid : Nat := E3
abbrev errorOverlong : Nat := E4
abbrev errorOutOfRange : Nat := E5
abbrev errorSurrogate : Nat := E6
abbrev errorUnfinished : Nat := E7

def isErrorState (state : Nat) : Bool := state &&& 1 ≠ 0

def errorDescription (state : Nat) : String :=
  if state = errorMissingExtension then "Missing extension byte"
  else if state = errorUnexpectedExtension then "Unexpected extension byte"
  else if state = errorInvalid then "Invalid UTF-8 byte"
  else if state = errorOverlong then "Overlong encoding"
  else if state = errorOutOfRange then "Out of unicode range"
  else if state = errorSurrogate then "Encoded surrogate"
  else if state = errorUnfinished then "Unfinished UTF-8 octet sequence"
  else ""

def byteType (byte : Nat) : Except DecodeError Nat := do
  return (← codeUnitAt typeTable byte) &&& typeMask

/-! ## `decodeGeneral` -/

/-- What is written for an error, and whether the byte is parsed again. -/
def replaceError (buffer : Text) (state i : Nat) : Except DecodeError (Text × Nat) := do
  if state = errorInvalid || state = errorUnexpectedExtension then
    return (← writeCharCode buffer unicodeReplacementCharacterRune, i)
  else if state = errorMissingExtension then
    return (← writeCharCode buffer unicodeReplacementCharacterRune, i - 1)
  else
    let buffer ← writeCharCode buffer unicodeReplacementCharacterRune
    return (← writeCharCode buffer unicodeReplacementCharacterRune, i)

/-- The loop over the ASCII characters from `i` on: the end of them, the index after the last byte that
was read, and this byte. -/
def asciiRun (bytes : List UInt8) (stop : Nat) :
    Nat → Nat → Nat → Except DecodeError (Nat × Nat × Nat)
  | 0, i, byte => if i < stop then .error .outOfFuel else .ok (stop, i, byte)
  | fuel + 1, i, byte => do
    if i < stop then
      let byte ← byteAt bytes i
      if byte ≥ 128 then return (i, i + 1, byte) else asciiRun bytes stop fuel (i + 1) byte
    else return (stop, i, byte)

/-- A run of ASCII characters is written, one by one if it is short. -/
def writeAscii (buffer : Text) (bytes : List UInt8) (markStart markEnd : Nat) :
    Except DecodeError Text :=
  if markEnd - markStart < 20 then
    (List.range' markStart (markEnd - markStart)).foldlM (fun buffer m => do
      writeCharCode buffer (← byteAt bytes m)) buffer
  else
    .ok (buffer ++ ((bytes.drop markStart).take (markEnd - markStart)).map fun b =>
      UInt16.ofNat b.toNat)

/-- How the loop of `decodeGeneral` ends: in a state, or with an error at an index. -/
inductive General where
  | done (state char : Nat) (buffer : Text)
  | failed (state index : Nat)
  deriving DecidableEq, Repr

/-- The loop of `decodeGeneral`, at the beginning of `multibyte`. -/
def generalLoop (allowMalformed : Bool) (bytes : List UInt8) (stop : Nat) :
    Nat → Nat → Nat → Nat → Nat → Text → Except DecodeError General
  | 0, _, _, _, _, _ => .error .outOfFuel
  | fuel + 1, state, char, i, byte, buffer => do
    let type ← byteType byte
    let char := if state ≤ afterBom then byte &&& (shiftedByteMask >>> type)
      else (byte &&& 0x3F) ||| (char <<< 6)
    let state ← codeUnitAt transitionTable (state + type)
    if state = accept then
      let buffer ← writeCharCode buffer char
      if i = stop then return .done state char buffer
      let markStart := i
      let byte ← byteAt bytes i
      if byte < 128 then
        let (markEnd, i, byte) ← asciiRun bytes stop (stop - markStart) (i + 1) byte
        check (markStart < markEnd)
        let buffer ← writeAscii buffer bytes markStart markEnd
        if markEnd = stop then return .done state char buffer
        generalLoop allowMalformed bytes stop fuel state char i byte buffer
      else generalLoop allowMalformed bytes stop fuel state char (i + 1) byte buffer
    else if isErrorState state then
      if allowMalformed then
        let (buffer, i) ← replaceError buffer state i
        if i = stop then return .done initial char buffer
        generalLoop allowMalformed bytes stop fuel initial char (i + 1) (← byteAt bytes i) buffer
      else return .failed state (i - 1)
    else
      if i = stop then return .done state char buffer
      generalLoop allowMalformed bytes stop fuel state char (i + 1) (← byteAt bytes i) buffer

section

variable (d : Utf8Decoder) (bytes : List UInt8) (start stop size : Nat)

/-- `decodeGeneral`: the decoder afterwards and the text. -/
def decodeGeneral (single : Bool) : Except DecodeError (Utf8Decoder × Text) := do
  let byte ← byteAt bytes start
  match ← generalLoop d.allowMalformed bytes stop (2 * (stop - start)) d.state d.charOrIndex
      (start + 1) byte [] with
  | .failed state index => return ({ d with state, charOrIndex := index }, [])
  | .done state char buffer =>
    if single && state > afterBom then
      if d.allowMalformed then
        let buffer ← writeCharCode buffer unicodeReplacementCharacterRune
        return ({ d with state, charOrIndex := char }, buffer)
      else return ({ d with state := errorUnfinished, charOrIndex := stop }, [])
    else return ({ d with state, charOrIndex := char }, buffer)

/-! ## Scanning -/

def sizeMask : Nat := 0x03
def flagsMask : Nat := 0x3C
def flagExtension : Nat := 1 <<< 2
def flagLatin1 : Nat := 1 <<< 3
def flagNonLatin1 : Nat := 1 <<< 4

/-- The size and the flags of the bytes. -/
def scanTable : List Nat :=
  (List.replicate 0x80 'A' ++ List.replicate 0x40 'D' ++                 -- 00-BF
    List.replicate 2 'a' ++ List.replicate 2 'I' ++ List.replicate 0x1C 'Q' ++ -- C0-DF
    List.replicate 0x10 'Q' ++ List.replicate 5 'R' ++ List.replicate 0xB 'b').map Char.toNat

def scanChunkSize : Nat := 65536

/-- `_scan`: the size, with the flags of the decoder. -/
def scanPart (scanFlags start stop : Nat) : Except DecodeError (Nat × Nat) := do
  let (size, flags) ← (List.range' start (stop - start)).foldlM (fun (size, flags) i => do
    let t ← codeUnitAt scanTable (← byteAt bytes i)
    return (size + (t &&& sizeMask), flags ||| t)) (0, 0)
  return (size, scanFlags ||| (flags &&& flagsMask))

/-- The loop of `scan` over parts of limited size. -/
def scanLoop (bytes : List UInt8) (stop : Nat) :
    Nat → Nat → Nat → Nat → Except DecodeError (Nat × Nat)
  | 0, _, _, _ => .error .outOfFuel
  | fuel + 1, size, scanFlags, localStart => do
    if stop - localStart > scanChunkSize then
      let localEnd := localStart + scanChunkSize
      let (n, scanFlags) ← scanPart bytes scanFlags localStart localEnd
      scanLoop bytes stop fuel (size + n) scanFlags localEnd
    else
      let (n, scanFlags) ← scanPart bytes scanFlags localStart stop
      return (size + n, scanFlags)

/-- `scan`: the size and the flags. -/
def scan : Except DecodeError (Nat × Nat) :=
  scanLoop bytes stop (stop - start + 1) 0 0 start

/-! ## The byte order mark -/

def bomValues : List Nat := [0xEF, 0xBB, 0xBF]

def skipBomSingle : Except DecodeError Nat := do
  if stop - start ≥ 3 then
    if (← byteAt bytes start) = 0xEF && (← byteAt bytes (start + 1)) = 0xBB &&
        (← byteAt bytes (start + 2)) = 0xBF then
      return start + 3
  return start

/-- The loop of `skipBomChunked`, with `bomIndex` bytes of the mark read. -/
def skipBomLoop (d : Utf8Decoder) (bytes : List UInt8) (start stop : Nat) :
    Nat → Nat → Nat → Except DecodeError (Utf8Decoder × Nat)
  | 0, _, _ => .error .outOfFuel
  | fuel + 1, bomIndex, i => do
    if bomIndex < 3 then
      if i = stop then return ({ d with bomIndex := bomIndex }, start)
      if (← byteAt bytes i) ≠ (← codeUnitAt bomValues bomIndex) then
        return ({ d with bomIndex := -1 }, start)
      skipBomLoop d bytes start stop fuel (bomIndex + 1) (i + 1)
    else return ({ d with bomIndex := -1, state := initial }, i)

/-- `skipBomChunked`: the decoder and where its input begins. -/
def skipBomChunked : Except DecodeError (Utf8Decoder × Nat) := do
  check (start ≤ stop)
  if d.bomIndex = -1 then return (d, start)
  skipBomLoop d bytes start stop 4 d.bomIndex.toNat start

/-! ## `decode8` -/

/-- How the fast decoders end: with an error at an index, or with a state and a string of which the
first `j` code units were written. -/
inductive Fast where
  | failed (state index : Nat)
  | done (state char : Nat) (result : List (Option UInt16)) (j : Nat)

/-- The loop of `decode8`. -/
def decode8Loop (bytes : List UInt8) (stop : Nat) :
    Nat → Nat → Nat → Nat → List (Option UInt16) → Except DecodeError Fast
  | 0, i, j, char, result =>
    if i < stop then .error .outOfFuel else .ok (.done accept char result j)
  | fuel + 1, i, j, char, result => do
    if i < stop then
      let byte ← byteAt bytes i
      if byte ≥ 0x80 then
        if byte < 0xC0 then return .failed errorUnexpectedExtension i
        check (byte = 0xC2 || byte = 0xC3)
        if i + 1 = stop then return .done X1 (byte &&& 0x1F) result j
        let e := (← byteAt bytes (i + 1)) ^^^ 0x80
        if e ≥ 0x40 then return .failed errorMissingExtension (i + 1)
        let result ← writeIntoOneByteString result j ((byte <<< 6) ||| e)
        decode8Loop bytes stop fuel (i + 2) (j + 1) char result
      else
        let result ← writeIntoOneByteString result j byte
        decode8Loop bytes stop fuel (i + 1) (j + 1) char result
    else return .done accept char result j

/-- `decode8` up to the last assertion. -/
def decode8Run : Except DecodeError Fast := do
  check (start < stop)
  let result := allocateString size
  if d.state = X1 then
    check (d.charOrIndex = 2 || d.charOrIndex = 3)
    let e := (← byteAt bytes start) ^^^ 0x80
    if e ≥ 0x40 then return .failed errorMissingExtension start
    let result ← writeIntoOneByteString result 0 ((d.charOrIndex <<< 6) ||| e)
    decode8Loop bytes stop (stop - start) (start + 1) 1 d.charOrIndex result
  else
    check (d.state = accept)
    decode8Loop bytes stop (stop - start) start 0 d.charOrIndex result

/-! ## `decode16` -/

/-- The character is written as one or two code units. -/
def writeChar (result : List (Option UInt16)) (j char : Nat) :
    Except DecodeError (List (Option UInt16) × Nat) := do
  if char ≥ 0x10000 then
    check (char < 0x110000)
    let result ← writeIntoTwoByteString result j (0xD7C0 + (char >>> 10))
    return (← writeIntoTwoByteString result (j + 1) (0xDC00 + (char &&& 0x3FF)), j + 2)
  else return (← writeIntoTwoByteString result j char, j + 1)

/-- The loop of `decode16` and the final write. -/
def decode16Loop (bytes : List UInt8) (stop : Nat) :
    Nat → Nat → Nat → Nat → Nat → List (Option UInt16) → Except DecodeError Fast
  | 0, _, _, _, _, _ => .error .outOfFuel
  | fuel + 1, i, j, state, char, result => do
    if i < stop then
      let byte ← byteAt bytes i
      let type ← byteType byte
      if state = accept then
        let (result, j) ← writeChar result j char
        decode16Loop bytes stop fuel (i + 1) j (← codeUnitAt transitionTable type)
          (byte &&& (shiftedByteMask >>> type)) result
      else if isErrorState state then return .failed state (i - 1)
      else
        decode16Loop bytes stop fuel (i + 1) j (← codeUnitAt transitionTable (state + type))
          ((byte &&& 0x3F) ||| (char <<< 6)) result
    else if state = accept then
      let (result, j) ← writeChar result j char
      return .done state char result j
    else if isErrorState state then return .failed state (stop - 1)
    else return .done state char result j

/-- `decode16` up to the last assertion. -/
def decode16Run : Except DecodeError Fast := do
  check (start < stop)
  let result := allocateString size
  check (!isErrorState d.state)
  let byte ← byteAt bytes start
  let type ← byteType byte
  if d.state = accept then
    decode16Loop bytes stop (stop - start) (start + 1) 0 (← codeUnitAt transitionTable type)
      (byte &&& (shiftedByteMask >>> type)) result
  else
    decode16Loop bytes stop (stop - start) (start + 1) 0
      (← codeUnitAt transitionTable (d.state + type))
      ((byte &&& 0x3F) ||| (d.charOrIndex <<< 6)) result

/-- The end of the fast decoders: the assertion on the size, and the result. -/
def finishFast : Fast → Except DecodeError (Utf8Decoder × List (Option UInt16))
  | .failed state index => return ({ d with state, charOrIndex := index }, [])
  | .done state char result j => do
    check (if d.bomIndex = 0 && state ≠ accept then j + 1 = size || j + 2 = size else j = size)
    return ({ d with state, charOrIndex := char }, result)

def decode8 : Except DecodeError (Utf8Decoder × List (Option UInt16)) := do
  finishFast d size (← decode8Run d bytes start stop size)

def decode16 : Except DecodeError (Utf8Decoder × List (Option UInt16)) := do
  finishFast d size (← decode16Run d bytes start stop size)

end

/-! ## Conversions -/

/-- A conversion changes the decoder, also when it throws. -/
abbrev DecoderM := EStateM DecodeError Utf8Decoder

def lift {α : Type} : Except DecodeError α → DecoderM α
  | .ok a => return a
  | .error e => throw e

/-- `copyRangeFromUint8ListToOneByteString`. -/
def copyRange (bytes : List UInt8) (result : List (Option UInt16)) (start toStart length : Nat) :
    Except DecodeError (List (Option UInt16)) :=
  (List.range length).foldlM (fun result i => do
    writeIntoOneByteString result (toStart + i) (← byteAt bytes (start + i))) result

/-- The size and the flags with what the carried-over state adds. -/
def addCarryOver (d : Utf8Decoder) (length size flags : Nat) : Nat × Nat :=
  if d.state = X1 then
    (if length ≥ 1 then size + (if d.charOrIndex < (0x10000 >>> 6) then 1 else 2) else size,
      flags ||| (if d.charOrIndex < (0x100 >>> 6) then flagLatin1 else flagNonLatin1))
  else if d.state = X2 then
    (if length ≥ 2 then size + (if d.charOrIndex < (0x10000 >>> 12) then 1 else 2) else size,
      flags ||| flagNonLatin1)
  else if d.state = TO || d.state = TS then
    (if length ≥ 2 then size + 1 else size, flags ||| flagNonLatin1)
  else if d.state = X3 || d.state = QO || d.state = QR then
    (if length ≥ 3 then size + 2 else size, flags ||| flagNonLatin1)
  else (size, flags)

/-- The loop over the extension bytes at the end. The first argument is `i + 1`; so is the first
result, with `extensionCount`. -/
def countExtensions (bytes : List UInt8) (start : Nat) :
    Nat → Nat → Except DecodeError (Nat × Nat)
  | 0, extensionCount => .ok (0, extensionCount)
  | i + 1, extensionCount => do
    if i ≥ start then
      if (← byteAt bytes i) &&& 0xC0 = 0x80 then countExtensions bytes start i (extensionCount + 1)
      else return (i + 1, extensionCount)
    else return (i + 1, extensionCount)

/-- The size without a final, incomplete character. -/
def dropIncomplete (bytes : List UInt8) (start stop size : Nat) : Except DecodeError Nat := do
  let (i, extensionCount) ← countExtensions bytes start stop 0
  if i > start then
    let byte ← byteAt bytes (i - 1)
    if byte ≥ (((-0x40 : Int) >>> extensionCount) % 0x100).toNat then
      let n := if byte ≥ 0xF0 then 2 else 1
      if size < n then .error .rangeError else return size - n
    else return size
  else return size

/-- The part of `convertChunked` after the fast decoders. -/
def afterFast (carryOver : Utf8Decoder) (bytes : List UInt8) (errorOffset start stop : Nat)
    (result : List (Option UInt16)) : DecoderM Text := do
  let d ← get
  if !isErrorState d.state then lift (readString result)
  else
    lift (check (d.bomIndex = -1))
    if !d.allowMalformed then
      set { d with state := initial }
      throw (.formatException (errorDescription d.state) (some (errorOffset + d.charOrIndex)))
    else
      let d := { d with state := carryOver.state, charOrIndex := carryOver.charOrIndex }
      let (d, text) ← lift (decodeGeneral d bytes start stop false)
      set d
      lift (check (!isErrorState d.state))
      return text

/-- The part of `convertChunked` after the scan. -/
def convertScanned (bytes : List UInt8) (errorOffset start stop size flags : Nat) :
    DecoderM Text := do
  let d ← get
  if flags = 0 then
    lift (check (d.state = accept))
    lift (check (size = stop - start))
    let result ← lift (copyRange bytes (allocateString size) start 0 size)
    lift (readString result)
  else
    let size ← lift (dropIncomplete bytes start stop size)
    let (d', result) ← lift (if flags = flagLatin1 ||| flagExtension then
      d.decode8 bytes start stop size else d.decode16 bytes start stop size)
    set d'
    afterFast d bytes errorOffset start stop result

/-- The part of `convertChunked` after the byte order mark. -/
def convertFrom (bytes : List UInt8) (errorOffset start stop : Nat) : DecoderM Text := do
  if start = stop then return []
  else
    let (size, flags) ← lift (scan bytes start stop)
    modify fun d => { d with scanFlags := flags }
    let (size, flags) := (← get).addCarryOver (stop - start) size flags
    convertScanned bytes errorOffset start stop size flags

/-- The checked end of the range. -/
def rangeEnd (codeUnits : CodeUnits) (start : Nat) (maybeEnd : Option Nat) : DecoderM Nat :=
  match checkValidRange start maybeEnd codeUnits.length with
  | some stop => return stop
  | none => throw .rangeError

def convertChunked (codeUnits : CodeUnits) (start : Nat) (maybeEnd : Option Nat) :
    DecoderM Text := do
  let stop ← rangeEnd codeUnits start maybeEnd
  let (bytes, errorOffset, start, stop) := haveBytes codeUnits start stop
  let (d, start) ← lift (skipBomChunked (← get) bytes start stop)
  set d
  convertFrom bytes errorOffset start stop

/-- `flush`: what is written to the sink. -/
def flush : DecoderM Text := do
  let d ← get
  set { d with state := initial }
  if d.state ≤ afterBom then return []
  else if d.allowMalformed then lift (writeCharCode [] unicodeReplacementCharacterRune)
  else throw (.formatException (errorDescription errorUnfinished) none)

/-- `convertGeneral`, which does not know the byte order mark. -/
def convertGeneral (codeUnits : CodeUnits) (start : Nat) (maybeEnd : Option Nat) (single : Bool) :
    DecoderM Text := do
  let stop ← rangeEnd codeUnits start maybeEnd
  if start = stop then return []
  else
    let (bytes, errorOffset, start, stop) := haveBytes codeUnits start stop
    let (d, text) ← lift ((← get).decodeGeneral bytes start stop single)
    set d
    if isErrorState d.state then
      set { d with state := initial }
      throw (.formatException (errorDescription d.state) (some (errorOffset + d.charOrIndex)))
    else return text

/-- A new decoder of the VM. -/
def create (allowMalformed : Bool) : Utf8Decoder := ⟨allowMalformed, initial, 0, 0, 0⟩

/-- A new decoder of the other platforms, whose state machine also skips a byte order mark. -/
def createBeforeBom (allowMalformed : Bool) : Utf8Decoder := ⟨allowMalformed, beforeBom, 0, 0, 0⟩

/-! ## Whole conversions -/

/-- A part of a list that is given to `convertChunked`. -/
structure Chunk where
  codeUnits : CodeUnits
  start : Nat
  maybeEnd : Option Nat
  stop : Nat
  valid : checkValidRange start maybeEnd codeUnits.length = some stop

/-- The bytes of the chunk. -/
def Chunk.bytes (c : Chunk) : List UInt8 :=
  match haveBytes c.codeUnits c.start c.stop with
  | (bytes, _, start, stop) => (bytes.take stop).drop start

def Chunk.convert (c : Chunk) : DecoderM Text := convertChunked c.codeUnits c.start c.maybeEnd

/-- Why a conversion fails: with a format exception, at a position in all the bytes, or not as it
should. -/
inductive Failure where
  | format (message : String) (position : Int)
  | other (error : DecodeError)
  deriving DecidableEq, Repr

/-- The failure for an error in a part of the input. The part begins at `start` in its list and at
`position` in all the bytes; an error without an offset is at the beginning of the part. -/
def Failure.of (position : Nat) (start : Nat) : DecodeError → Failure
  | .formatException message (some offset) => .format message (position + (offset - start : Int))
  | .formatException message none => .format message position
  | error => .other error

/-- The chunks are converted, then the decoder is flushed. -/
def decodeChunks (d : Utf8Decoder) (position : Nat) : List Chunk → Except Failure Text
  | [] =>
    match flush d with
    | .ok text _ => .ok text
    | .error error _ => .error (.of position 0 error)
  | c :: chunks =>
    match c.convert d with
    | .ok text d => do return text ++ (← decodeChunks d (position + c.bytes.length) chunks)
    | .error error _ => .error (.of position c.start error)

/-- All the bytes are decoded by the state machine in one go. -/
def decodeSingle (allowMalformed : Bool) (bytes : List UInt8) : Except Failure Text :=
  match convertGeneral (.uint8List bytes) 0 none true (createBeforeBom allowMalformed) with
  | .ok text _ => .ok text
  | .error error _ => .error (.of 0 0 error)

/-- All the bytes are decoded by `decodeGeneral` after a byte order mark. -/
def decodeWhole (allowMalformed : Bool) (bytes : List UInt8) : Except Failure Text :=
  let conversion := do
    convertGeneral (.uint8List bytes) (← lift (skipBomSingle bytes 0 bytes.length)) none true
  match conversion (create allowMalformed) with
  | .ok text _ => .ok text
  | .error error _ => .error (.of 0 0 error)

end Utf8Decoder

end Convert
