import DartSdk.Http.WebSocket

/-!
# The WebSocket outgoing transformer

`_WebSocketOutgoingTransformer` of `sdk/lib/_http/websocket_impl.dart`: what is sent for a message.

A frame may be masked in the list that was given, so `createFrame` and `add` also return the given
list as it is afterwards. The random masking key is an argument. The deflate extension is a function
on bytes, whose result is a new list.
-/

namespace Http

/-- A `List<int>`: a `Uint8List`, which may be a view, or another list. -/
inductive IntList where
  | uint8List (bytes : List UInt8) (offsetInBytes : Nat)
  | list (elements : List Int)
  deriving DecidableEq, Repr

/-- What is given to `add`. -/
inductive OutgoingMessage where
  | pong (payload : Option IntList)
  | ping (payload : Option IntList)
  | string (text : Convert.Text)
  | bytes (message : IntList)
  /-- The bytes that were given to `addUtf8Text`. -/
  | encodedString (bytes : IntList)
  | null
  | other
  deriving DecidableEq, Repr

inductive OutgoingError where
  /-- `ArgumentError(message)`. -/
  | invalidMessage
  | argumentError (text : String)
  | rangeError
  deriving DecidableEq, Repr

namespace IntList

def length : IntList → Nat
  | uint8List bytes _ => bytes.length
  | list elements => elements.length

def isUint8List : IntList → Bool
  | uint8List _ _ => true
  | list _ => false

def offsetInBytes : IntList → Nat
  | uint8List _ offsetInBytes => offsetInBytes
  | list _ => 0

/-- The elements in a `Uint8List`. -/
def toUint8List : IntList → Except OutgoingError (List UInt8)
  | uint8List bytes _ => .ok bytes
  | list elements => elements.zipIdx.mapM fun (x, i) =>
    if x < 0 ∨ 255 < x then
      .error (.argumentError s!"List element is not a byte value (value {x} at index {i})")
    else .ok (.ofNat x.toNat)

end IntList

/-- The lists that are added to the sink for a frame, or an error, and the given list afterwards. -/
abbrev Created := Except OutgoingError (List UInt8 × Option IntList) × Option IntList

namespace WebSocketOutgoingTransformer

open WebSocketProtocolTransformer

def frameHeader (opcode : Int) (dataLength : Nat) (compressed : Bool)
    (maskBytes : Option (Vector UInt8 4)) : List UInt8 :=
  let hoc := FIN ||| (if compressed then RSV1 else 0) ||| (.ofNat opcode.toNat &&& OPCODE)
  let (marker, lengthBytes) :=
    if dataLength > 65535 then ([127], 8) else if dataLength > 125 then ([126], 2) else ([], 1)
  let length := marker ++ (List.range lengthBytes).map fun i =>
    UInt8.ofNat (dataLength >>> ((lengthBytes - 1 - i) * 8) &&& 0xFF)
  match maskBytes with
  | none => hoc :: length
  | some maskBytes => hoc :: (length.modifyHead (· ||| 0x80) ++ maskBytes.toList)

/-- The masking of a list that begins at `offsetInBytes` of its memory. -/
def maskList (maskBytes : Vector UInt8 4) (offsetInBytes : Nat) (list : List UInt8) :
    Except OutgoingError (List UInt8) :=
  let BLOCK_SIZE := 16
  let blockCount := list.length / BLOCK_SIZE
  let i := blockCount * BLOCK_SIZE
  if blockCount > 0 ∧ offsetInBytes % BLOCK_SIZE ≠ 0 then .error .rangeError
  else
    let list := xorLanes (blockMask maskBytes 0) (list.take i) ++ list.drop i
    .ok (unmaskBytes maskBytes (list.length - i) i i list).1

def createFrame (opcode : Int) (data : Option IntList) (serverSide compressed : Bool)
    (maskBytes : Vector UInt8 4) : Created :=
  let mask := !serverSide
  let header := frameHeader opcode ((data.map IntList.length).getD 0) compressed
    (if mask then some maskBytes else none)
  match mask, data with
  | true, some given =>
    -- A text message is masked inside the encoded data.
    let inPlace := opcode = WebSocketOpcode.TEXT ∧ given.isUint8List
    let offsetInBytes := if inPlace then given.offsetInBytes else 0
    match do maskList maskBytes offsetInBytes (← given.toUint8List) with
    | .error e => (.error e, data)
    | .ok bytes =>
      let list := IntList.uint8List bytes offsetInBytes
      (.ok (header, some list), if inPlace then some list else data)
  | _, _ => (.ok (header, data), data)

section
variable (serverSide : Bool) (deflate : Option (List UInt8 → List Int)) (maskBytes : Vector UInt8 4)

/-- The part of `add` after the message's data and opcode are known. -/
def addData (opcode : Int) (messageData : IntList) : Created :=
  match deflate with
  | none => createFrame opcode (some messageData) serverSide false maskBytes
  | some processOutgoingMessage =>
    match messageData.toUint8List with
    | .error e => (.error e, some messageData)
    | .ok buffer =>
      let data := IntList.list (processOutgoingMessage buffer)
      ((createFrame opcode (some data) serverSide true maskBytes).1, some messageData)

def add : OutgoingMessage → Created
  | .pong payload => createFrame WebSocketOpcode.PONG payload serverSide false maskBytes
  | .ping payload => createFrame WebSocketOpcode.PING payload serverSide false maskBytes
  | .string text =>
    match Convert.utf8Convert text 0 none with
    | none => (.error .rangeError, none)
    | some bytes =>
      ((addData serverSide deflate maskBytes WebSocketOpcode.TEXT (.uint8List bytes 0)).1, none)
  | .bytes message => addData serverSide deflate maskBytes WebSocketOpcode.BINARY message
  | .encodedString bytes => addData serverSide deflate maskBytes WebSocketOpcode.TEXT bytes
  | .null => createFrame WebSocketOpcode.TEXT none serverSide deflate.isSome maskBytes
  | .other => (.error .invalidMessage, none)

end

end WebSocketOutgoingTransformer

end Http
