import DartSdk.Convert.Utf8Decoder

/-!
# The WebSocket protocol transformer

`_WebSocketProtocolTransformer` of `sdk/lib/_http/websocket_impl.dart`: the byte stream of a
connection comes in chunks (`add`), and messages, pings, pongs and the end go to the event sink.

The state is passed explicitly; what is thrown comes with the state at that moment. The deflate
extension is a function on the bytes of a message.
-/

namespace Http

open Convert (Text)

namespace WebSocketMessageType

def NONE : Int := 0
def TEXT : Int := 1
def BINARY : Int := 2

end WebSocketMessageType

namespace WebSocketOpcode

def CONTINUATION : Int := 0
def TEXT : Int := 1
def BINARY : Int := 2
def CLOSE : Int := 8
def PING : Int := 9
def PONG : Int := 10

end WebSocketOpcode

/-- `WebSocketStatus.noStatusReceived`. -/
def noStatusReceived : Nat := 1005

/-- What the transformer puts into its sink. A listener that is told of the end reads the fields
`closeCode` and `closeReason`. -/
inductive WebSocketEvent where
  | text (text : Text)
  | binary (bytes : List UInt8)
  | ping (payload : Option (List UInt8))
  | pong (payload : Option (List UInt8))
  | close (closeCode : Nat) (closeReason : Text)
  deriving DecidableEq, Repr

inductive Thrown where
  | webSocketException (message : String)
  | formatException (failure : Convert.Utf8Decoder.Failure)
  | rangeError
  deriving DecidableEq, Repr

/-- `_state`. -/
inductive FrameState where
  | start | lenFirst | lenRest | mask | payload | closed | failure
  deriving DecidableEq, Repr

structure WebSocketProtocolTransformer where
  serverSide : Bool
  deflate : Option (List UInt8 → List UInt8)
  state : FrameState := .start
  fin : Bool := false
  compressed : Bool := false
  opcode : Int := -1
  len : BitVec 64 := -1
  masked : Bool := false
  remainingLenBytes : Int := -1
  remainingMaskingKeyBytes : Nat := 4
  remainingPayloadBytes : Int := -1
  unmaskingIndex : Nat := 0
  currentMessageType : Int := WebSocketMessageType.NONE
  closeCode : Nat := noStatusReceived
  closeReason : Text := []
  maskingBytes : Vector UInt8 4 := .replicate 4 0
  /-- The bytes in the `BytesBuilder`. -/
  payload : List UInt8 := []
  /-- What went into the event sink. -/
  events : List WebSocketEvent := []

namespace WebSocketProtocolTransformer

/-- The state after a method, or what it throws. -/
abbrev Outcome := Except (Thrown × WebSocketProtocolTransformer) WebSocketProtocolTransformer

def FIN : UInt8 := 0x80
def RSV1 : UInt8 := 0x40
def RSV2 : UInt8 := 0x20
def RSV3 : UInt8 := 0x10
def OPCODE : UInt8 := 0xF

variable (t : WebSocketProtocolTransformer)

def protocolError : Outcome :=
  .error (.webSocketException "Protocol error", t)

/-- `_eventSink!.add`. -/
def emit (event : WebSocketEvent) : WebSocketProtocolTransformer :=
  { t with events := t.events ++ [event] }

/-- `_eventSink!.close`. -/
def closeSink : WebSocketProtocolTransformer :=
  t.emit (.close t.closeCode t.closeReason)

def isControlFrame : Bool :=
  t.opcode = WebSocketOpcode.CLOSE ∨ t.opcode = WebSocketOpcode.PING ∨
    t.opcode = WebSocketOpcode.PONG

def prepareForNextFrame : WebSocketProtocolTransformer :=
  { t with
    state := if t.state ≠ .closed ∧ t.state ≠ .failure then .start else t.state
    fin := false
    opcode := -1
    len := -1
    remainingLenBytes := -1
    remainingMaskingKeyBytes := 4
    remainingPayloadBytes := -1
    unmaskingIndex := 0 }

/-- `utf8.decode`. -/
def utf8Decode (bytes : List UInt8) : Except (Thrown × WebSocketProtocolTransformer) Text :=
  match Convert.Utf8Decoder.decodeSingle false bytes with
  | .ok text => .ok text
  | .error failure => .error (.formatException failure, t)

/-! ## The end of a frame -/

/-- The bytes of a message, which may be compressed. -/
def inflate (bytes : List UInt8) : List UInt8 :=
  match t.deflate with
  | some processIncomingMessage => if t.compressed then processIncomingMessage bytes else bytes
  | none => bytes

/-- The switch on the message type in `_messageFrameEnd`. -/
def messageEvent (bytes : List UInt8) : Outcome :=
  if t.currentMessageType = WebSocketMessageType.TEXT then
    (t.utf8Decode bytes).map fun text => t.emit (.text text)
  else if t.currentMessageType = WebSocketMessageType.BINARY then .ok (t.emit (.binary bytes))
  else .ok t

def messageFrameEnd : Outcome :=
  if t.fin then
    let bytes := t.inflate t.payload
    ({ t with payload := [] }.messageEvent bytes).map fun t : WebSocketProtocolTransformer =>
      { t with currentMessageType := WebSocketMessageType.NONE }.prepareForNextFrame
  else .ok t.prepareForNextFrame

/-- The code and the reason in the payload of a close frame. -/
def readClose : (payload : List UInt8) → Outcome
  | [] => .ok t
  | [_] => t.protocolError
  | high :: low :: reason =>
    let t := { t with closeCode := (high.toNat <<< 8) ||| low.toNat }
    if t.closeCode = noStatusReceived then t.protocolError
    else if reason ≠ [] then (t.utf8Decode reason).map fun text => { t with closeReason := text }
    else .ok t

/-- The switch on the opcode in `_controlFrameEnd`. -/
def controlEvent : Outcome :=
  let taken := { t with payload := [] }
  if t.opcode = WebSocketOpcode.CLOSE then
    ({ taken with closeCode := noStatusReceived }.readClose t.payload).map
      fun t : WebSocketProtocolTransformer => { t with state := .closed }.closeSink
  else if t.opcode = WebSocketOpcode.PING then .ok (taken.emit (.ping (some t.payload)))
  else if t.opcode = WebSocketOpcode.PONG then .ok (taken.emit (.pong (some t.payload)))
  else .ok t

def controlFrameEnd : Outcome :=
  t.controlEvent.map prepareForNextFrame

/-! ## Header and masking key -/

def startPayload : Outcome :=
  if t.remainingPayloadBytes = 0 then
    if t.isControlFrame then
      let t := if t.opcode = WebSocketOpcode.CLOSE then { t with state := .closed }.closeSink
        else if t.opcode = WebSocketOpcode.PING then t.emit (.ping none)
        else if t.opcode = WebSocketOpcode.PONG then t.emit (.pong none)
        else t
      .ok t.prepareForNextFrame
    else t.messageFrameEnd
  else .ok { t with state := .payload }

def maskDone : Outcome :=
  { t with remainingPayloadBytes := t.len.toInt }.startPayload

def lengthDone : Outcome :=
  if t.masked then
    if !t.serverSide then .error (.webSocketException "Received masked frame from server", t)
    else .ok { t with state := .mask }
  else
    if t.serverSide then .error (.webSocketException "Received unmasked frame from client", t)
    else { t with remainingPayloadBytes := t.len.toInt }.startPayload

/-- Which frames may come: the checks of the opcode. -/
def checkOpcode : Outcome :=
  if t.opcode ≤ WebSocketOpcode.BINARY then
    if t.opcode = WebSocketOpcode.CONTINUATION then
      if t.currentMessageType = WebSocketMessageType.NONE then t.protocolError else .ok t
    else if t.currentMessageType ≠ WebSocketMessageType.NONE then t.protocolError
    else .ok { t with currentMessageType := t.opcode }
  else if t.opcode ≥ WebSocketOpcode.CLOSE ∧ t.opcode ≤ WebSocketOpcode.PONG then
    if !t.fin then t.protocolError else .ok t
  else t.protocolError

/-- The byte in the state `START`. -/
def readStart (byte : UInt8) : Outcome :=
  let t := { t with fin := byte &&& FIN != 0 }
  if byte &&& (RSV2 ||| RSV3) != 0 then t.protocolError
  else
    let t := { t with opcode := (byte &&& OPCODE).toNat }
    let compressed := if t.opcode ≠ WebSocketOpcode.CONTINUATION then byte &&& RSV1 != 0
      else t.compressed
    { t with compressed := compressed }.checkOpcode.map
      fun t : WebSocketProtocolTransformer => { t with state := .lenFirst }

/-- The byte in the state `LEN_FIRST`. -/
def readLenFirst (byte : UInt8) : Outcome :=
  let t := { t with masked := byte &&& 0x80 != 0, len := (byte &&& 0x7F).toBitVec.setWidth 64 }
  if t.isControlFrame ∧ t.len.toInt > 125 then t.protocolError
  else if t.len = 126 then .ok { t with len := 0, remainingLenBytes := 2, state := .lenRest }
  else if t.len = 127 then .ok { t with len := 0, remainingLenBytes := 8, state := .lenRest }
  else t.lengthDone

/-- The byte in the state `LEN_REST`. -/
def readLenRest (byte : UInt8) : Outcome :=
  let t := { t with
    len := (t.len <<< 8) ||| byte.toBitVec.setWidth 64
    remainingLenBytes := t.remainingLenBytes - 1 }
  if t.remainingLenBytes = 0 then t.lengthDone else .ok t

/-- The byte in the state `MASK`. -/
def readMask (byte : UInt8) : Outcome :=
  let t := { t with
    maskingBytes := t.maskingBytes.set! (4 - t.remainingMaskingKeyBytes) byte
    remainingMaskingKeyBytes := t.remainingMaskingKeyBytes - 1 }
  if t.remainingMaskingKeyBytes = 0 then t.maskDone else .ok t

/-- The states in which the bytes are read one at a time. -/
def readByte (byte : UInt8) : Outcome :=
  match t.state with
  | .start => t.readStart byte
  | .lenFirst => t.readLenFirst byte
  | .lenRest => t.readLenRest byte
  | .mask => t.readMask byte
  | .payload | .closed | .failure => .ok t

/-! ## Payload -/

variable (maskingBytes : Vector UInt8 4) (i : Nat)

/-- `_maskingBytes[i & 3]`. -/
def maskingByte : UInt8 :=
  maskingBytes.get ⟨i &&& 3, Nat.lt_of_le_of_lt Nat.and_le_right (by decide)⟩

/-- `buffer[i] ^= _maskingBytes[_unmaskingIndex++ & 3]` for `count` bytes from `i` on. -/
def unmaskBytes (maskingBytes : Vector UInt8 4) :
    (count i unmaskingIndex : Nat) → List UInt8 → List UInt8 × Nat
  | 0, _, unmaskingIndex, buffer => (buffer, unmaskingIndex)
  | count + 1, i, unmaskingIndex, buffer =>
    unmaskBytes maskingBytes count (i + 1) (unmaskingIndex + 1)
      (buffer.modify i (· ^^^ maskingByte maskingBytes unmaskingIndex))

/-- The mask block: the bytes of the key from the unmasking index on, the first one lowest. -/
def blockMask (unmaskingIndex : Nat) : BitVec 32 :=
  [3, 2, 1, 0].foldl (fun mask i =>
    (mask <<< 8) ||| (maskingByte maskingBytes (unmaskingIndex + i)).toBitVec.setWidth 32) 0

/-- A view as 32-bit lanes in the byte order of the machine, which is little endian, where every
lane is combined with the mask. -/
def xorLanes (mask : BitVec 32) : List UInt8 → List UInt8
  | b₀ :: b₁ :: b₂ :: b₃ :: bytes =>
    let lane : BitVec 32 := (b₃.toBitVec ++ b₂.toBitVec ++ b₁.toBitVec ++ b₀.toBitVec) ^^^ mask
    .ofBitVec (lane.extractLsb' 0 8) :: .ofBitVec (lane.extractLsb' 8 8) ::
      .ofBitVec (lane.extractLsb' 16 8) :: .ofBitVec (lane.extractLsb' 24 8) :: xorLanes mask bytes
  | bytes => bytes

/-- `_unmask`: the buffer and the unmasking index. The buffer begins at `offsetInBytes` of its
memory; the view as blocks is a range error unless it begins at a multiple of their size. -/
def unmask (unmaskingIndex offsetInBytes index length : Nat)
    (buffer : List UInt8) : Option (List UInt8 × Nat) := do
  let BLOCK_SIZE := 16
  let (index, length, buffer, unmaskingIndex) ←
    if length ≥ BLOCK_SIZE then
      let startOffset := BLOCK_SIZE - (index &&& 15)
      let (buffer, unmaskingIndex) := unmaskBytes maskingBytes startOffset index unmaskingIndex buffer
      let index := index + startOffset
      let length := length - startOffset
      let blockCount := length / BLOCK_SIZE
      if blockCount > 0 then
        if (offsetInBytes + index) % BLOCK_SIZE ≠ 0 then none
        else
          let bytes := blockCount * BLOCK_SIZE
          let blocks := xorLanes (blockMask maskingBytes unmaskingIndex)
            ((buffer.drop index).take bytes)
          some (index + bytes, length - bytes,
            buffer.take index ++ blocks ++ buffer.drop (index + bytes), unmaskingIndex)
      else some (index, length, buffer, unmaskingIndex)
    else some (index, length, buffer, unmaskingIndex)
  some (unmaskBytes maskingBytes length index unmaskingIndex buffer)

/-- The bytes of a payload block go to the `BytesBuilder`; the frame may end with them. -/
def addPayload (block : List UInt8) : Outcome :=
  let t := { t with payload := t.payload ++ block }
  if t.isControlFrame then
    if t.remainingPayloadBytes = 0 then t.controlFrameEnd else .ok t
  else if t.currentMessageType ≠ WebSocketMessageType.TEXT ∧
      t.currentMessageType ≠ WebSocketMessageType.BINARY then
    t.protocolError
  else if t.remainingPayloadBytes = 0 then t.messageFrameEnd
  else .ok t

/-- The payload is unmasked in the buffer if it is masked. -/
def unmaskPayload (offsetInBytes index length : Nat) (buffer : List UInt8) :
    Except (Thrown × WebSocketProtocolTransformer) (WebSocketProtocolTransformer × List UInt8) :=
  if t.masked then
    match unmask t.maskingBytes t.unmaskingIndex offsetInBytes index length buffer with
    | some (buffer, unmaskingIndex) => .ok ({ t with unmaskingIndex := unmaskingIndex }, buffer)
    | none => .error (.rangeError, t)
  else .ok (t, buffer)

/-- A block in the state `PAYLOAD`: the state, the buffer and the next index. -/
def readPayload (offsetInBytes index : Nat) (buffer : List UInt8) :
    Except (Thrown × WebSocketProtocolTransformer)
      (WebSocketProtocolTransformer × List UInt8 × Nat) :=
  let payloadLength : Int := min ((buffer.length : Int) - index) t.remainingPayloadBytes
  let t := { t with remainingPayloadBytes := t.remainingPayloadBytes - payloadLength }
  let length := payloadLength.toNat
  match t.unmaskPayload offsetInBytes index length buffer with
  | .error thrown => .error thrown
  | .ok (t, buffer) =>
    -- The view of a length that overflowed.
    if payloadLength < 0 then .error (.rangeError, t)
    else (t.addPayload ((buffer.drop index).take length)).map fun t => (t, buffer, index + length)

/-! ## Chunks -/

/-- A chunk of the stream: a `Uint8List`, which may be a view. -/
structure Chunk where
  bytes : List UInt8
  offsetInBytes : Nat := 0
  deriving DecidableEq, Repr

/-- The loop of `add`. The first argument bounds the number of iterations. -/
def addLoop (offsetInBytes : Nat) :
    Nat → WebSocketProtocolTransformer → Nat → List UInt8 → Outcome
  | 0, t, _, _ => .ok t
  | fuel + 1, t, index, buffer =>
    match buffer[index]? with
    | none => .ok t
    | some byte =>
      match t.state with
      | .closed | .failure => .ok t
      | .payload =>
        match t.readPayload offsetInBytes index buffer with
        | .error thrown => .error thrown
        | .ok (t, buffer, index) => addLoop offsetInBytes fuel t index buffer
      | .start | .lenFirst | .lenRest | .mask =>
        match t.readByte byte with
        | .error thrown => .error thrown
        | .ok t => addLoop offsetInBytes fuel t (index + 1) buffer

def add (chunk : Chunk) : Outcome :=
  match t.state with
  | .closed => .error (.webSocketException "Data on closed connection", t)
  | .failure => .error (.webSocketException "Data on failed connection", t)
  | _ => addLoop chunk.offsetInBytes chunk.bytes.length t 0 chunk.bytes

/-- The chunks of a stream, up to the first error. -/
def addAll (chunks : List Chunk) : Outcome :=
  chunks.foldlM add t

end WebSocketProtocolTransformer

end Http
