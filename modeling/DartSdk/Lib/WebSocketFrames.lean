import DartSdk.Lib.Utf8

/-!
# WebSocket frames

The frames of the WebSocket protocol without extensions, their bytes on the wire, and what a legal
sequence of frames says to its receiver: messages in any number of fragments, with control frames
anywhere between the fragments, and nothing after a close frame.
-/

namespace WebSocketFrames

inductive Opcode where
  | continuation | text | binary | close | ping | pong
  deriving DecidableEq, Repr

def Opcode.code : Opcode → Nat
  | .continuation => 0
  | .text => 1
  | .binary => 2
  | .close => 8
  | .ping => 9
  | .pong => 10

def Opcode.isControl : Opcode → Bool
  | .close | .ping | .pong => true
  | .continuation | .text | .binary => false

/-- A frame. Its payload is what the sender had before the masking. -/
structure Frame where
  fin : Bool
  opcode : Opcode
  maskingKey : Option (Vector UInt8 4)
  payload : List UInt8
  /-- The length has at most 63 bits. -/
  length_lt : payload.length < 2 ^ 63
  /-- Control frames are short. -/
  control_le : opcode.isControl = true → payload.length ≤ 125
  /-- Control frames are not fragmented. -/
  control_fin : opcode.isControl = true → fin = true

/-! ## Bytes -/

def keyByte (key : Vector UInt8 4) (i : Nat) : UInt8 := key.get ⟨i % 4, Nat.mod_lt i (by decide)⟩

/-- The bytes from position `i` of a payload, masked or unmasked. -/
def maskFrom (key : Vector UInt8 4) : Nat → List UInt8 → List UInt8
  | _, [] => []
  | i, b :: bs => (b ^^^ keyByte key i) :: maskFrom key (i + 1) bs

/-- The last `count` bytes of a number, the highest one first. -/
def bigEndian (n : Nat) : Nat → List UInt8
  | 0 => []
  | count + 1 => UInt8.ofNat (n / 256 ^ count % 256) :: bigEndian n count

/-- The mask bit and the length in the least number of bytes. -/
def lengthBytes (masked : Bool) (n : Nat) : List UInt8 :=
  let maskBit := if masked then 0x80 else 0
  if n < 126 then [UInt8.ofNat (maskBit + n)]
  else if n < 2 ^ 16 then UInt8.ofNat (maskBit + 126) :: bigEndian n 2
  else UInt8.ofNat (maskBit + 127) :: bigEndian n 8

def maskedPayload (maskingKey : Option (Vector UInt8 4)) (payload : List UInt8) : List UInt8 :=
  match maskingKey with
  | none => payload
  | some key => key.toList ++ maskFrom key 0 payload

def Frame.bytes (f : Frame) : List UInt8 :=
  UInt8.ofNat ((if f.fin then 0x80 else 0) + f.opcode.code) ::
    (lengthBytes f.maskingKey.isSome f.payload.length ++ maskedPayload f.maskingKey f.payload)

/-! ## Meaning -/

inductive Kind where
  | text | binary
  deriving DecidableEq, Repr

def Kind.opcode : Kind → Opcode
  | .text => .text
  | .binary => .binary

/-- What a receiver is told. -/
inductive Message where
  | text (characters : List Char)
  | binary (bytes : List UInt8)
  | ping (payload : List UInt8)
  | pong (payload : List UInt8)
  | close (code : Nat) (reason : List Char)
  deriving DecidableEq, Repr

/-- The payload of a whole message. -/
inductive Kind.Says : Kind → List UInt8 → Message → Prop where
  | text (cs : List Char) : Says .text (Utf8.encode cs) (.text cs)
  | binary (bytes : List UInt8) : Says .binary bytes (.binary bytes)

/-- The codes that a close frame may carry. -/
def isStatusCode (code : Nat) : Prop :=
  1000 ≤ code ∧ code < 5000 ∧ code ≠ 1005 ∧ code ≠ 1006 ∧ code ≠ 1015

/-- The payload of a close frame. Without a code it says 1005. -/
inductive CloseSays : List UInt8 → Message → Prop where
  | empty : CloseSays [] (.close 1005 [])
  | status {code : Nat} (reason : List Char) : isStatusCode code →
      CloseSays (bigEndian code 2 ++ Utf8.encode reason) (.close code reason)

/-- The message that is not finished: its kind and the bytes of its fragments so far. -/
abbrev Unfinished := Option (Kind × List UInt8)

/-- The frames are legal after the fragments of an unfinished message and say the messages. -/
inductive Says : Unfinished → List Frame → List Message → Prop where
  | nil (u : Unfinished) : Says u [] []
  | first {f : Frame} {fs : List Frame} {ms : List Message} (kind : Kind)
      (hop : f.opcode = kind.opcode) (hfin : f.fin = false) :
      Says (some (kind, f.payload)) fs ms → Says none (f :: fs) ms
  | next {f : Frame} {fs : List Frame} {ms : List Message} {kind : Kind} {bytes : List UInt8}
      (hop : f.opcode = .continuation) (hfin : f.fin = false) :
      Says (some (kind, bytes ++ f.payload)) fs ms → Says (some (kind, bytes)) (f :: fs) ms
  | only {f : Frame} {fs : List Frame} {m : Message} {ms : List Message} {kind : Kind}
      (hop : f.opcode = kind.opcode) (hfin : f.fin = true) (hm : kind.Says f.payload m) :
      Says none fs ms → Says none (f :: fs) (m :: ms)
  | last {f : Frame} {fs : List Frame} {m : Message} {ms : List Message} {kind : Kind}
      {bytes : List UInt8} (hop : f.opcode = .continuation) (hfin : f.fin = true)
      (hm : kind.Says (bytes ++ f.payload) m) :
      Says none fs ms → Says (some (kind, bytes)) (f :: fs) (m :: ms)
  | ping {u : Unfinished} {f : Frame} {fs : List Frame} {ms : List Message}
      (hop : f.opcode = .ping) : Says u fs ms → Says u (f :: fs) (.ping f.payload :: ms)
  | pong {u : Unfinished} {f : Frame} {fs : List Frame} {ms : List Message}
      (hop : f.opcode = .pong) : Says u fs ms → Says u (f :: fs) (.pong f.payload :: ms)
  | close {u : Unfinished} {f : Frame} {m : Message} (hop : f.opcode = .close)
      (hm : CloseSays f.payload m) : Says u [f] [m]

end WebSocketFrames
