import DartSdk.Http.Proof.WebSocketBytes

/-!
# The WebSocket transformer frame by frame

What the bytes of a frame do, as a function of the frame: `Session.frame`. The fragments of a message
and the control frames share the bytes that were collected.

* `foldlM_step_frame`: the bytes of a frame.
* `foldlM_step_frames`: the bytes of all frames of a legal sequence.
-/

namespace Http.WebSocketProtocolTransformer

open WebSocketFrames Nat BitVec WebSocketOpcode
open List (foldlM_cons prefix_append)
open Fallible (Ends)

/-! ## Frames as a whole -/

def protocolException : Thrown := .webSocketException "Protocol error"

/-- The transformer between two frames. -/
structure Session where
  /-- The unfinished message. -/
  kind : Option Kind := none
  /-- The bytes in the `BytesBuilder`. -/
  payload : List UInt8 := []
  events : List WebSocketEvent := []
  closed : Bool := false

namespace Session

def utf8Decode (bytes : List UInt8) : Except Thrown Convert.Text :=
  match Convert.Utf8Decoder.decodeSingle false bytes with
  | .ok text => .ok text
  | .error failure => .error (.formatException failure)

/-- A frame of a message. -/
def message (s : Session) (kind : Kind) (f : Frame) : Except Thrown Session :=
  let bytes := s.payload ++ f.payload
  if f.fin then
    match kind with
    | .text =>
      (utf8Decode bytes).map fun text =>
        { s with kind := none, payload := [], events := s.events ++ [.text text] }
    | .binary => .ok { s with kind := none, payload := [], events := s.events ++ [.binary bytes] }
  else .ok { s with kind := some kind, payload := bytes }

/-- A ping or a pong. -/
def control (s : Session) (ev : Option (List UInt8) → WebSocketEvent) (f : Frame) : Session :=
  if f.payload = [] then { s with events := s.events ++ [ev none] }
  else { s with payload := [], events := s.events ++ [ev (some (s.payload ++ f.payload))] }

/-- The code and the reason of a close frame that is not empty. -/
def closing : List UInt8 → Except Thrown (Nat × Convert.Text)
  | high :: low :: reason =>
    let code := (high.toNat <<< 8) ||| low.toNat
    if code = noStatusReceived then .error protocolException
    else if reason ≠ [] then (utf8Decode reason).map fun text => (code, text)
    else .ok (code, [])
  | _ => .error protocolException

def close (s : Session) (f : Frame) : Except Thrown Session :=
  if f.payload = [] then
    .ok { s with closed := true, events := s.events ++ [.close noStatusReceived []] }
  else
    (closing (s.payload ++ f.payload)).map fun (code, reason) =>
      { s with payload := [], closed := true, events := s.events ++ [.close code reason] }

def frame (s : Session) (f : Frame) : Except Thrown Session :=
  match f.opcode with
  | .continuation =>
    match s.kind with
    | some kind => s.message kind f
    | none => .error protocolException
  | .text => s.message .text f
  | .binary => s.message .binary f
  | .ping => .ok (s.control .ping f)
  | .pong => .ok (s.control .pong f)
  | .close => s.close f

end Session

/-! ## The header -/

def typeCode : Option Kind → Int
  | none => WebSocketMessageType.NONE
  | some .text => WebSocketMessageType.TEXT
  | some .binary => WebSocketMessageType.BINARY

/-- The kind of the message that a frame belongs to. -/
def kindAfter : Opcode → Option Kind → Option Kind
  | .text, _ => some .text
  | .binary, _ => some .binary
  | _, kind => kind

/-- The frame may come now. -/
def mayCome : Opcode → Option Kind → Prop
  | .continuation, kind => kind ≠ none
  | .text, kind | .binary, kind => kind = none
  | _, _ => True

def withOpcode (t : WebSocketProtocolTransformer) (fin : Bool) (opcode : Opcode) (type : Int) :
    WebSocketProtocolTransformer :=
  { t with
    fin := fin, opcode := opcode.code, compressed := false, currentMessageType := type
    state := .lenFirst }

theorem firstByte_bits (fin : Bool) (op : Opcode) :
    let byte := UInt8.ofNat ((if fin then 0x80 else 0) + op.code)
    (byte &&& FIN != 0) = fin ∧ (byte &&& (RSV2 ||| RSV3) != 0) = false ∧
      (byte &&& OPCODE).toNat = op.code ∧ (byte &&& RSV1 != 0) = false := by
  cases fin <;> cases op <;> decide

variable {t : WebSocketProtocolTransformer} {s : Session} {f : Frame} {n : Nat}
  {bytes payload : List UInt8} {type : Int} {events : List WebSocketEvent} {kind : Kind}
  {ev : Option (List UInt8) → WebSocketEvent}

theorem readStart_frame {fin : Bool} {op : Opcode}
    {kind : Option Kind} (hcm : t.compressed = false)
    (hty : t.currentMessageType = typeCode kind) (hc : mayCome op kind)
    (hf : op.isControl = true → fin = true) :
    t.readStart (UInt8.ofNat ((if fin then 0x80 else 0) + op.code)) =
      .ok (t.withOpcode fin op (typeCode (kindAfter op kind))) := by
  obtain ⟨hb, hr, hcd, hrs⟩ := firstByte_bits fin op
  unfold readStart
  simp only [hb, hr, hcd, hrs]
  unfold checkOpcode
  cases op with
  | continuation =>
    have hne : typeCode kind ≠ WebSocketMessageType.NONE := by
      match kind, hc with
      | some .text, _ => decide
      | some .binary, _ => decide
    simp [Opcode.code, BINARY, CONTINUATION, hne, Except.map, withOpcode, kindAfter, hcm, hty]
  | text | binary =>
    obtain rfl : kind = none := hc
    have hn : t.currentMessageType = WebSocketMessageType.NONE := hty
    simp [Opcode.code, BINARY, CONTINUATION, hn, Except.map,
      withOpcode, kindAfter, typeCode, WebSocketMessageType.TEXT, WebSocketMessageType.BINARY]
  | close | ping | pong =>
    obtain rfl := hf rfl
    simp [Opcode.code, BINARY, CONTINUATION, CLOSE, PONG, Except.map, withOpcode, kindAfter, hty]

/-! ## The length -/

def withLength (t : WebSocketProtocolTransformer) (masked : Bool) (n : Nat) (remaining : Int)
    (state : FrameState) : WebSocketProtocolTransformer :=
  { t with
    masked := masked, len := BitVec.ofNat 64 n, remainingLenBytes := remaining, state := state }

theorem lengthByte_bits (msk : Bool) (h : n < 128) :
    let byte := UInt8.ofNat ((if msk then 0x80 else 0) + n)
    (byte &&& 0x80 != 0) = msk ∧ (byte &&& 0x7F).toBitVec.setWidth 64 = BitVec.ofNat 64 n := by
  have ha : ∀ m : Bool, ∀ k : Fin 128, let byte := UInt8.ofNat ((if m then 0x80 else 0) + k.val)
      (byte &&& 0x80 != 0) = m ∧ (byte &&& 0x7F).toBitVec.setWidth 64 = BitVec.ofNat 64 k.val := by
    decide +kernel
  exact ha msk ⟨n, h⟩

theorem toInt_ofNat (h : n < 2 ^ 63) : (BitVec.ofNat 64 n).toInt = n := by
  have hnt : (BitVec.ofNat 64 n).toNat = n := by
    rw [BitVec.toNat_ofNat, mod_eq_of_lt (by omega)]
  rw [toInt_eq_toNat_of_lt (by omega), hnt]

theorem shiftLeft_or_byte (m : Nat) (byte : Nat) :
    ((BitVec.ofNat 64 m) <<< 8) ||| (UInt8.ofNat (byte % 256)).toBitVec.setWidth 64 =
      BitVec.ofNat 64 (m * 256 + byte % 256) := by
  have hb : (UInt8.ofNat (byte % 256)).toBitVec.setWidth 64 = BitVec.ofNat 64 (byte % 256) := by
    apply eq_of_toNat_eq
    simp
  have hor : m <<< 8 ||| byte % 256 = m * 256 + byte % 256 := by
    rw [← shiftLeft_add_eq_or_of_lt (mod_lt byte (by decide)), Nat.shiftLeft_eq]
  apply eq_of_toNat_eq
  rw [hb, ← hor]
  simp [Nat.shiftLeft_eq]

theorem foldlM_lenRest {ct : Nat} (hs : t.state = .lenRest)
    (hc : 0 < ct) (hr : t.remainingLenBytes = ct)
    (hl : t.len = BitVec.ofNat 64 (n / 256 ^ ct)) (rest : List UInt8) :
    (bigEndian n ct ++ rest).foldlM step t =
      (t.withLength t.masked n 0 .lenRest).lengthDone >>= rest.foldlM step := by
  induction ct generalizing t with
  | zero => exact absurd hc (by decide)
  | succ ct ih =>
    have hsp : n / 256 ^ (ct + 1) * 256 + n / 256 ^ ct % 256 = n / 256 ^ ct := by
      rw [Nat.pow_succ, ← Nat.div_div_eq_div_mul, div_add_mod']
    have hl' : (t.len <<< 8) ||| (UInt8.ofNat (n / 256 ^ ct % 256)).toBitVec.setWidth 64 =
        BitVec.ofNat 64 (n / 256 ^ ct) := by
      rw [hl, shiftLeft_or_byte, hsp]
    rw [bigEndian, List.cons_append, foldlM_cons]
    simp only [step, hs, readByte, readLenRest, hl']
    cases ct with
    | zero =>
      rw [if_pos (by rw [hr]; rfl)]
      simp [withLength, hr, bigEndian]
    | succ ct =>
      rw [if_neg (by rw [hr]; omega)]
      refine (ih rfl (by omega) ?_ rfl).trans rfl
      show t.remainingLenBytes - 1 = _
      omega

theorem readLenFirst_eq (msk : Bool) (h : n < 128)
    (hcn : t.isControlFrame = true → n ≤ 125) :
    t.readLenFirst (UInt8.ofNat ((if msk then 0x80 else 0) + n)) =
      if n = 126 then .ok (t.withLength msk 0 2 .lenRest)
      else if n = 127 then .ok (t.withLength msk 0 8 .lenRest)
      else (t.withLength msk n t.remainingLenBytes t.state).lengthDone := by
  obtain ⟨hm, hl⟩ := lengthByte_bits msk h
  have hi : ¬(t.isControlFrame = true ∧ (BitVec.ofNat 64 n).toInt > 125) := by
    rintro ⟨hc, hgt⟩
    rw [toInt_ofNat (by omega)] at hgt
    have := hcn hc
    omega
  have heq : ∀ k < 128, (BitVec.ofNat 64 n = BitVec.ofNat 64 k ↔ n = k) := by
    intro k hk
    rw [← toNat_inj, BitVec.toNat_ofNat, BitVec.toNat_ofNat, mod_eq_of_lt (by omega),
      mod_eq_of_lt (by omega)]
  have heq126 : BitVec.ofNat 64 n = 126 ↔ n = 126 := heq 126 (by decide)
  have heq127 : BitVec.ofNat 64 n = 127 ↔ n = 127 := heq 127 (by decide)
  unfold readLenFirst
  simp only [hm, hl, heq126, heq127]
  rw [if_neg (by exact hi)]
  rfl

theorem foldlM_lengthBytes (hs : t.state = .lenFirst)
    (hcn : t.isControlFrame = true → n ≤ 125) (hn : n < 2 ^ 63) (msk : Bool)
    (rest : List UInt8) :
    ∃ remaining state, (state = .lenFirst ∨ state = .lenRest) ∧
      (lengthBytes msk n ++ rest).foldlM step t =
        (t.withLength msk n remaining state).lengthDone >>= rest.foldlM step := by
  have hl : ∀ k count : Nat, t.readLenFirst (UInt8.ofNat ((if msk then 0x80 else 0) + k)) =
      .ok (t.withLength msk 0 count .lenRest) → 0 < count → n / 256 ^ count = 0 →
      ((UInt8.ofNat ((if msk then 0x80 else 0) + k) :: bigEndian n count) ++ rest).foldlM step t =
        (t.withLength msk n 0 .lenRest).lengthDone >>= rest.foldlM step := by
    intro k count hr hct hz
    have hst : t.step (UInt8.ofNat ((if msk then 0x80 else 0) + k)) =
        .ok (t.withLength msk 0 count .lenRest) := by
      simp only [step, hs, readByte, hr]
    rw [List.cons_append, foldlM_cons, hst]
    exact foldlM_lenRest rfl hct rfl (by rw [hz]; rfl) rest
  have hcn' : ∀ k : Nat, 126 ≤ n → t.isControlFrame = true → k ≤ 125 := fun k hle hc =>
    absurd (hcn hc) (by omega)
  unfold lengthBytes
  by_cases h126 : n < 126
  · refine ⟨t.remainingLenBytes, .lenFirst, .inl rfl, ?_⟩
    rw [if_pos h126, List.singleton_append, foldlM_cons]
    simp only [step, hs, readByte]
    rw [readLenFirst_eq msk (by omega) hcn, if_neg (by omega), if_neg (by omega), hs]
  · rw [if_neg h126]
    by_cases h16 : n < 2 ^ 16
    · rw [if_pos h16]
      refine ⟨0, .lenRest, .inr rfl, hl 126 2 ?_ (by decide) (div_eq_of_lt (by omega))⟩
      exact readLenFirst_eq msk (by decide) (hcn' 126 (by omega))
    · rw [if_neg h16]
      refine ⟨0, .lenRest, .inr rfl, hl 127 8 ?_ (by decide) (div_eq_of_lt (by omega))⟩
      exact readLenFirst_eq msk (by decide) (hcn' 127 (by omega))

/-! ## The masking key -/

theorem vector_four (key : Vector UInt8 4) : ∃ k0 k1 k2 k3, key = #v[k0, k1, k2, k3] :=
  match key with
  | ⟨⟨[k0, k1, k2, k3]⟩, _⟩ => ⟨k0, k1, k2, k3, rfl⟩

theorem foldlM_mask (hs : t.state = .mask)
    (hk : t.remainingMaskingKeyBytes = 4) (key : Vector UInt8 4) (rest : List UInt8) :
    (key.toList ++ rest).foldlM step t =
      { t with maskingBytes := key, remainingMaskingKeyBytes := 0 }.maskDone >>=
        rest.foldlM step := by
  obtain ⟨k0, k1, k2, k3, rfl⟩ := vector_four key
  obtain ⟨m0, m1, m2, m3, hm⟩ := vector_four t.maskingBytes
  simp [foldlM_cons, step, hs, readByte, readMask, hk, hm, bind, Except.bind]

/-! ## From the start of a frame to its payload -/

/-- The transformer is at the start of a frame, or closed. -/
structure Ready (t : WebSocketProtocolTransformer) (s : Session) : Prop where
  state : t.state = if s.closed then .closed else .start
  compressed : t.compressed = false
  type : t.currentMessageType = typeCode s.kind
  payload : t.payload = s.payload
  events : t.events = s.events
  closeCode : s.closed = false → t.closeCode = noStatusReceived
  closeReason : s.closed = false → t.closeReason = []
  key : t.remainingMaskingKeyBytes = 4
  index : t.unmaskingIndex = 0

/-- The transformer is in a frame, with these bytes in its `BytesBuilder`. -/
structure InFrame (t : WebSocketProtocolTransformer) (s : Session) (f : Frame)
    (bytes : List UInt8) : Prop where
  state : t.state ≠ .closed ∧ t.state ≠ .failure
  fin : t.fin = f.fin
  opcode : t.opcode = f.opcode.code
  type : t.currentMessageType = typeCode (kindAfter f.opcode s.kind)
  compressed : t.compressed = false
  payload : t.payload = bytes
  events : t.events = s.events
  closeCode : t.closeCode = noStatusReceived
  closeReason : t.closeReason = []

/-- The transformer has read all of a frame but its payload. -/
structure Begun (t : WebSocketProtocolTransformer) (s : Session) (f : Frame) : Prop
    extends InFrame t s f s.payload where
  remaining : t.remainingPayloadBytes = f.payload.length
  index : t.unmaskingIndex = 0
  masked : t.masked = f.maskingKey.isSome
  maskingBytes : ∀ key, f.maskingKey = some key → t.maskingBytes = key

/-- The payload on the wire. -/
def sent (f : Frame) : List UInt8 :=
  match f.maskingKey with
  | none => f.payload
  | some key => maskFrom key 0 f.payload

theorem isControlFrame_withOpcode (t : WebSocketProtocolTransformer) (fin : Bool) (op : Opcode)
    (type : Int) : (t.withOpcode fin op type).isControlFrame = op.isControl := by
  cases op <;> rfl

theorem lengthDone_unmasked (hm : t.masked = false)
    (hs : t.serverSide = false) :
    t.lengthDone = { t with remainingPayloadBytes := t.len.toInt }.startPayload := by
  simp [lengthDone, hm, hs]

theorem lengthDone_masked (hm : t.masked = true)
    (hs : t.serverSide = true) : t.lengthDone = .ok { t with state := .mask } := by
  simp [lengthDone, hm, hs]

theorem foldlM_header
    (hr : Ready t s) (ho : s.closed = false) (hcm : mayCome f.opcode s.kind)
    (hm : f.maskingKey.isSome = t.serverSide) :
    ∃ t', Begun t' s f ∧ f.bytes.foldlM step t = t'.startPayload >>= (sent f).foldlM step := by
  have hs : t.state = .start := by rw [hr.state, ho]; rfl
  obtain ⟨remaining, state, hst, hl⟩ := foldlM_lengthBytes rfl
    (fun hc => f.control_le ((isControlFrame_withOpcode ..).symm.trans hc)) f.length_lt
    f.maskingKey.isSome (maskedPayload f.maskingKey f.payload)
  have hi := toInt_ofNat f.length_lt
  rw [Frame.bytes, foldlM_cons]
  have hsp : t.step (UInt8.ofNat ((if f.fin then 0x80 else 0) + f.opcode.code)) =
      .ok (t.withOpcode f.fin f.opcode (typeCode (kindAfter f.opcode s.kind))) := by
    simp only [step, hs, readByte]
    exact readStart_frame hr.compressed hr.type hcm f.control_fin
  rw [hsp]
  show ∃ t', Begun t' s f ∧ List.foldlM step (t.withOpcode f.fin f.opcode _) _ = _
  rw [hl]
  cases hky : f.maskingKey with
  | none =>
    have hsr : t.serverSide = false := by rw [← hm, hky]; rfl
    refine ⟨{ (t.withOpcode f.fin f.opcode (typeCode (kindAfter f.opcode s.kind))).withLength false
      f.payload.length remaining state with remainingPayloadBytes := f.payload.length }, ?_, ?_⟩
    · exact ⟨⟨by rcases hst with rfl | rfl <;> exact ⟨by rintro ⟨⟩, by rintro ⟨⟩⟩, rfl, rfl, rfl, rfl,
        hr.payload, hr.events, hr.closeCode ho, hr.closeReason ho⟩, rfl,
        hr.index, by rw [hky]; rfl, fun key hk => by rw [hky] at hk; cases hk⟩
    have hsn : sent f = f.payload := by rw [sent, hky]
    rw [hsn, lengthDone_unmasked (by rfl) (by exact hsr)]
    simp only [withLength, hi]
    rfl
  | some key =>
    have hsr : t.serverSide = true := by rw [← hm, hky]; rfl
    refine ⟨{ (t.withOpcode f.fin f.opcode (typeCode (kindAfter f.opcode s.kind))).withLength true
      f.payload.length remaining .mask with
      maskingBytes := key, remainingMaskingKeyBytes := 0
      remainingPayloadBytes := f.payload.length }, ?_, ?_⟩
    · exact ⟨⟨⟨by rintro ⟨⟩, by rintro ⟨⟩⟩, rfl, rfl, rfl, rfl, hr.payload, hr.events,
        hr.closeCode ho, hr.closeReason ho⟩, rfl, hr.index, by rw [hky]; rfl,
        fun key' hk => by rw [hky] at hk; cases hk; rfl⟩
    have hsn : sent f = maskFrom key 0 f.payload := by rw [sent, hky]
    rw [hsn, lengthDone_masked (by rfl) (by exact hsr)]
    refine (foldlM_mask (by rfl) (by exact hr.key) key _).trans ?_
    simp only [maskDone, withLength, hi]
    rfl

/-! ## The end of a frame -/

/-- The transformer did with a frame what the session does. -/
def FrameFollows (r : Outcome) (r' : Except Thrown Session) : Prop :=
  match r' with
  | .ok s' => ∃ t', r = .ok t' ∧ Ready t' s'
  | .error e => ∃ t', r = .error (e, t')

theorem InFrame.ready (h : InFrame t s f bytes) (ho : s.closed = false) {s' : Session}
    (hc : s'.closed = s.closed) (hty : type = typeCode s'.kind)
    (hp : payload = s'.payload) (he : events = s'.events) :
    Ready { t with currentMessageType := type, payload, events }.prepareForNextFrame s' := by
  refine ⟨?_, h.compressed, hty, hp, he, fun _ => h.closeCode, fun _ => h.closeReason, rfl, rfl⟩
  rw [hc, ho, prepareForNextFrame]
  exact if_pos h.state

theorem messageEvent_text
    (hty : t.currentMessageType = WebSocketMessageType.TEXT) (bytes : List UInt8) :
    t.messageEvent bytes = (t.utf8Decode bytes).map fun text => t.emit (.text text) :=
  if_pos hty

theorem messageEvent_binary
    (hty : t.currentMessageType = WebSocketMessageType.BINARY) (bytes : List UInt8) :
    t.messageEvent bytes = .ok (t.emit (.binary bytes)) := by
  have hne : t.currentMessageType ≠ WebSocketMessageType.TEXT := by rw [hty]; decide
  rw [messageEvent, if_neg hne, if_pos hty]

theorem messageFrameEnd_follows
    (h : InFrame t s f (s.payload ++ f.payload)) (ho : s.closed = false)
    (hk : kindAfter f.opcode s.kind = some kind) :
    FrameFollows t.messageFrameEnd (s.message kind f) := by
  have hty := h.type
  rw [hk] at hty
  have hi : t.inflate t.payload = s.payload ++ f.payload := by
    rw [inflate, h.compressed, h.payload]
    cases t.deflate <;> rfl
  unfold messageFrameEnd Session.message
  cases hfn : f.fin with
  | false =>
    rw [if_neg (by rw [h.fin, hfn]; nofun), if_neg nofun]
    exact ⟨_, rfl, h.ready ho rfl hty h.payload h.events⟩
  | true =>
    rw [if_pos (h.fin.trans hfn), if_pos rfl, hi]
    dsimp only
    cases kind with
    | text =>
      rw [messageEvent_text (by exact hty)]
      unfold utf8Decode Session.utf8Decode
      generalize Convert.Utf8Decoder.decodeSingle _ _ = decoded
      cases decoded with
      | error failure => exact ⟨_, rfl⟩
      | ok text =>
        exact ⟨_, rfl, h.ready ho rfl rfl rfl (congrArg (· ++ _) h.events)⟩
    | binary =>
      rw [messageEvent_binary (by exact hty)]
      exact ⟨_, rfl, h.ready ho rfl rfl rfl (congrArg (· ++ _) h.events)⟩

theorem kindAfter_control {op : Opcode} (h : op.isControl = true) (kind : Option Kind) :
    kindAfter op kind = kind := by
  cases op <;> first | rfl | cases h

theorem readClose_eq (t : WebSocketProtocolTransformer) (payload : List UInt8) (hne : payload ≠ [])
    (hr : t.closeReason = []) :
    (∃ e t1, t.readClose payload = .error (e, t1) ∧ Session.closing payload = .error e) ∨
    (∃ code reason, t.readClose payload = .ok { t with closeCode := code, closeReason := reason } ∧
      Session.closing payload = .ok (code, reason)) := by
  match payload, hne with
  | [_], _ => exact .inl ⟨_, _, rfl, rfl⟩
  | high :: low :: reason, _ =>
    unfold readClose Session.closing utf8Decode Session.utf8Decode
    dsimp only
    by_cases hc : (high.toNat <<< 8) ||| low.toNat = noStatusReceived
    · rw [if_pos hc, if_pos hc]
      exact .inl ⟨_, _, rfl, rfl⟩
    rw [if_neg hc, if_neg hc]
    by_cases hem : reason ≠ []
    · rw [if_pos hem, if_pos hem]
      generalize Convert.Utf8Decoder.decodeSingle _ _ = decoded
      cases decoded with
      | error failure => exact .inl ⟨_, _, rfl, rfl⟩
      | ok text => exact .inr ⟨_, _, rfl, rfl⟩
    · rw [if_neg hem, if_neg hem]
      exact .inr ⟨_, _, by rw [← hr], rfl⟩

theorem ready_closed (hst : t.state = .closed)
    (hc : s.closed = true) (hcm : t.compressed = false)
    (hty : t.currentMessageType = typeCode s.kind) (hp : t.payload = s.payload)
    (he : t.events = s.events) : Ready t.prepareForNextFrame s := by
  refine ⟨?_, hcm, hty, hp, he, fun h => absurd (hc.symm.trans h) (by simp),
    fun h => absurd (hc.symm.trans h) (by simp), rfl, rfl⟩
  rw [hc, prepareForNextFrame]
  simp [hst]

theorem closeFrameEnd_follows
    (h : InFrame t s f (s.payload ++ f.payload)) (hcl : f.opcode = .close)
    (hne : f.payload ≠ []) : FrameFollows t.controlFrameEnd (s.close f) := by
  have hty := h.type
  rw [hcl] at hty
  have hop : t.opcode = CLOSE := by rw [h.opcode, hcl]; rfl
  unfold controlFrameEnd controlEvent Session.close
  rw [if_pos hop, if_neg hne, h.payload]
  rcases readClose_eq { t with payload := [], closeCode := noStatusReceived }
    (s.payload ++ f.payload) (by simp [hne]) h.closeReason with
    ⟨e, t1, hr, hc⟩ | ⟨code, reason, hr, hc⟩
  · rw [hr, hc]
    exact ⟨t1, rfl⟩
  · rw [hr, hc]
    refine ⟨_, rfl, ready_closed rfl rfl h.compressed hty rfl ?_⟩
    exact congrArg (· ++ _) h.events

/-! ## A frame -/

theorem InFrame.isControlFrame {bytes : List UInt8} (h : InFrame t s f bytes) :
    t.isControlFrame = f.opcode.isControl := by
  unfold WebSocketProtocolTransformer.isControlFrame
  rw [h.opcode]
  cases f.opcode <;> rfl

theorem InFrame.inMessage {bytes : List UInt8} (h : InFrame t s f bytes)
    (hk : kindAfter f.opcode s.kind = some kind) : t.inMessage := by
  have hty := h.type
  rw [hk] at hty
  cases kind with
  | text => exact .inl hty
  | binary => exact .inr hty

theorem length_sent (f : Frame) : (sent f).length = f.payload.length := by
  unfold sent
  split
  · rfl
  · exact length_maskFrom ..

theorem sent_nil (h : f.payload = []) : sent f = [] :=
  List.eq_nil_of_length_eq_zero (by rw [length_sent, h]; rfl)

section
variable (h : Begun t s f)
include h

theorem Begun.unmasked_sent : t.unmasked (sent f) = f.payload := by
  unfold unmasked sent
  rw [h.masked]
  cases hk : f.maskingKey with
  | none => rfl
  | some key =>
    simp only [Option.isSome_some, if_true]
    rw [h.maskingBytes key hk, h.index, maskFrom_maskFrom]

/-- The end of a frame whose payload is not empty. -/
theorem startPayload_append (hne : f.payload ≠ [])
    (hfr : t.isControlFrame = true ∨ t.inMessage) :
    ∃ t', InFrame t' s f (s.payload ++ f.payload) ∧
      t.startPayload >>= (sent f).foldlM step =
        if t'.isControlFrame then t'.controlFrameEnd else t'.messageFrameEnd := by
  have hl : 0 < f.payload.length := List.length_pos_iff.2 hne
  have hr : t.remainingPayloadBytes ≠ 0 := by rw [h.remaining]; omega
  have hz : t.remainingPayloadBytes - (sent f).length = 0 := by
    rw [h.remaining, length_sent, Int.sub_self]
  have hst : t.startPayload = .ok { t with state := .payload } := by
    rw [startPayload, if_neg hr]
  have hb := foldlM_step_block (t := { t with state := .payload }) rfl hfr
    (List.ne_nil_of_length_pos (length_sent f ▸ hl)) (by
      show _ ≤ t.remainingPayloadBytes
      omega)
  have hsn : { t with state := .payload }.unmasked (sent f) = f.payload := h.unmasked_sent
  have hsa : FrameState.payload ≠ .closed ∧ FrameState.payload ≠ .failure := by decide
  refine ⟨({ t with state := .payload }.advance (sent f).length).append f.payload,
    ⟨hsa, h.fin, h.opcode, h.type, h.compressed, congrArg (· ++ _) h.payload, h.events,
      h.closeCode, h.closeReason⟩, ?_⟩
  rw [hst]
  refine hb.trans ?_
  rw [hsn, addPayload_eq, if_pos (by exact hfr), if_pos (by exact hz)]
  rfl

theorem startPayload_message (ho : s.closed = false)
    (hc : f.opcode.isControl = false) (hk : kindAfter f.opcode s.kind = some kind) :
    FrameFollows (t.startPayload >>= (sent f).foldlM step) (s.message kind f) := by
  by_cases hne : f.payload = []
  · have hn : ¬t.isControlFrame = true := by rw [h.isControlFrame, hc]; nofun
    have hst : t.startPayload = t.messageFrameEnd := by
      rw [startPayload, if_pos (by rw [h.remaining, hne]; rfl), if_neg hn]
    rw [hst, sent_nil hne]
    show FrameFollows (_ >>= pure) _
    rw [bind_pure]
    exact messageFrameEnd_follows (by rw [hne, List.append_nil]; exact h.toInFrame) ho hk
  · obtain ⟨t', ht', heq⟩ := startPayload_append h hne (.inr (h.inMessage hk))
    rw [heq, if_neg (by rw [ht'.isControlFrame, hc]; nofun)]
    exact messageFrameEnd_follows ht' ho hk

theorem startPayload_control (ho : s.closed = false)
    (hc : f.opcode.isControl = true)
    (he : t.remainingPayloadBytes = 0 → t.startPayload = .ok (t.emit (ev none)).prepareForNextFrame)
    (hev : ∀ t', InFrame t' s f (s.payload ++ f.payload) →
      t'.controlEvent = .ok ({ t' with payload := [] }.emit (ev (some t'.payload)))) :
    FrameFollows (t.startPayload >>= (sent f).foldlM step) (.ok (s.control ev f)) := by
  by_cases hne : f.payload = []
  · have hty := h.type
    rw [kindAfter_control hc] at hty
    rw [he (by rw [h.remaining, hne]; rfl), sent_nil hne, Session.control, if_pos hne]
    exact ⟨_, rfl, h.ready ho rfl hty h.payload (congrArg (· ++ _) h.events)⟩
  · obtain ⟨t', ht', heq⟩ := startPayload_append h hne (.inl (h.isControlFrame.trans hc))
    rw [heq, if_pos (by rw [ht'.isControlFrame, hc])]
    have hty := ht'.type
    rw [kindAfter_control hc] at hty
    rw [controlFrameEnd, hev t' ht', Session.control, if_neg hne]
    refine ⟨_, rfl, ht'.ready ho rfl hty rfl ?_⟩
    rw [ht'.events, ht'.payload]

theorem startPayload_close (hcl : f.opcode = .close) :
    FrameFollows (t.startPayload >>= (sent f).foldlM step) (s.close f) := by
  have hc : f.opcode.isControl = true := by rw [hcl]; rfl
  by_cases hne : f.payload = []
  · have hty := h.type
    rw [kindAfter_control hc] at hty
    have hop : t.opcode = CLOSE := by rw [h.opcode, hcl]; rfl
    have hst : t.startPayload = .ok { t with state := .closed }.closeSink.prepareForNextFrame := by
      rw [startPayload, if_pos (by rw [h.remaining, hne]; rfl),
        if_pos (h.isControlFrame.trans hc), if_pos hop]
    rw [hst, sent_nil hne, Session.close, if_pos hne]
    refine ⟨_, rfl, ready_closed rfl rfl h.compressed hty h.payload ?_⟩
    show t.events ++ [.close t.closeCode t.closeReason] = _
    rw [h.events, h.closeCode, h.closeReason]
  · obtain ⟨t', ht', heq⟩ := startPayload_append h hne (.inl (h.isControlFrame.trans hc))
    rw [heq, if_pos (by rw [ht'.isControlFrame, hc])]
    exact closeFrameEnd_follows ht' hcl hne

end

/-- **The bytes of a frame** do what the session does with the frame. -/
theorem foldlM_step_frame (hr : Ready t s) (ho : s.closed = false)
    (hc : mayCome f.opcode s.kind) (hm : f.maskingKey.isSome = t.serverSide) :
    FrameFollows (f.bytes.foldlM step t) (s.frame f) := by
  obtain ⟨t', h, heq⟩ := foldlM_header hr ho hc hm
  rw [heq, Session.frame]
  cases hop : f.opcode with
  | continuation =>
    rw [hop] at hc
    obtain ⟨kind, hk⟩ := Option.ne_none_iff_exists'.1 hc
    simp only [hk]
    exact startPayload_message h ho (by rw [hop]; rfl) (by rw [hop, ← hk]; rfl)
  | text | binary => exact startPayload_message h ho (by rw [hop]; rfl) (by rw [hop]; rfl)
  | close => exact startPayload_close h hop
  | ping | pong =>
    refine startPayload_control h ho (by rw [hop]; rfl) (fun hz => ?_) fun t'' h' => ?_
    · simp [startPayload, hz, h.isControlFrame, hop, Opcode.isControl, h.opcode, Opcode.code,
        CLOSE, PING, PONG]
    · simp [controlEvent, h'.opcode, hop, Opcode.code, CLOSE, PING, PONG]

/-! ## All frames -/

namespace Session

/-- The frame leaves the session open, with this unfinished message. -/
structure Open (s : Session) (kind : Option Kind) : Prop where
  kind_eq : s.kind = kind
  not_closed : s.closed = false

theorem not_isDataAfterEnd_protocol : ¬IsDataAfterEnd protocolException := by
  rintro (h | h) <;> exact absurd h (by decide)

theorem utf8Decode_ends : Ends (utf8Decode bytes) (fun _ => True) (¬IsDataAfterEnd ·) := by
  unfold utf8Decode
  split
  · trivial
  · rintro (he | he) <;> cases he

theorem message_ends (s : Session) (kind : Kind) (f : Frame) : Ends (s.message kind f)
    (fun s' => (s'.kind = (if f.fin then none else some kind) ∧ s'.closed = s.closed) ∧
      s.events <+: s'.events) (¬IsDataAfterEnd ·) := by
  unfold message
  split_ifs
  · cases kind with
    | text => exact utf8Decode_ends.map fun _ _ => ⟨⟨rfl, rfl⟩, prefix_append _ _⟩
    | binary => exact ⟨⟨rfl, rfl⟩, prefix_append _ _⟩
  · exact ⟨⟨rfl, rfl⟩, List.prefix_refl _⟩

theorem control_open (ev : Option (List UInt8) → WebSocketEvent) (f : Frame)
    (ho : s.closed = false) : (s.control ev f).Open s.kind := by
  unfold control
  split_ifs <;> exact ⟨rfl, ho⟩

/-- Events are never taken back. The errors of a session are those of decoding, and of what a close
frame may say. -/
theorem frame_ends (s : Session) (f : Frame) :
    Ends (s.frame f) (s.events <+: ·.events) (¬IsDataAfterEnd ·) := by
  have hm : ∀ kind, Ends (s.message kind f) (s.events <+: ·.events) (¬IsDataAfterEnd ·) :=
    fun kind => (message_ends s kind f).imp fun _ h => h.2
  have hc : ∀ ev, s.events <+: (s.control ev f).events := by
    intro ev
    unfold control
    split_ifs <;> exact prefix_append _ _
  unfold frame
  split
  · split
    · exact hm _
    · exact not_isDataAfterEnd_protocol
  · exact hm _
  · exact hm _
  · exact hc _
  · exact hc _
  unfold close closing
  split_ifs
  · exact prefix_append _ _
  refine Ends.map (P := fun _ => True) ?_ fun _ _ => prefix_append _ _
  split
  · dsimp only
    split_ifs
    · exact not_isDataAfterEnd_protocol
    · exact utf8Decode_ends.map fun _ _ => trivial
    · trivial
  · exact not_isDataAfterEnd_protocol

theorem run_ends (s : Session) (fs : List Frame) :
    Ends (fs.foldlM frame s) (s.events <+: ·.events) (¬IsDataAfterEnd ·) :=
  Ends.foldlM (List.prefix_refl _) fun _ hs =>
    (frame_ends ..).imp fun _ => hs.trans

end Session

theorem Ready.inv (h : Ready t s) : Inv t.serverSide t := by
  refine .of_ne rfl ?_ ?_ <;> rw [h.state] <;> split_ifs <;> nofun

/-- The frame that comes first may come, and it leaves the session ready for the others. -/
theorem says_cons {u : Unfinished} {fs : List Frame} {ms : List Message}
    (h : Says u (f :: fs) ms) (hs : s.Open (u.map Prod.fst)) :
    mayCome f.opcode s.kind ∧ (fs = [] ∨ ∃ u' ms', Says u' fs ms' ∧
      ∀ s', s.frame f = .ok s' → s'.Open (u'.map Prod.fst)) := by
  have hms : ∀ {kind s'}, s.message kind f = .ok s' →
      s'.Open (if f.fin then none else some kind) := fun h =>
    have he := ((s.message_ends _ f).of_ok h).1
    ⟨he.1, he.2.trans hs.not_closed⟩
  rw [hs.kind_eq]
  unfold Session.frame
  rw [hs.kind_eq]
  cases h with
  | first kind hop hfn ht | @only _ _ _ _ kind hop hfn hm ht =>
    simp only [hfn] at hms
    rw [hop]
    cases kind with
    | text | binary => exact ⟨rfl, .inr ⟨_, _, ht, fun s' h => hms h⟩⟩
  | next hop hfn ht | last hop hfn hm ht =>
    simp only [hfn] at hms
    rw [hop]
    exact ⟨nofun, .inr ⟨_, _, ht, fun s' h => hms h⟩⟩
  | ping hop ht | pong hop ht =>
    rw [hop]
    refine ⟨trivial, .inr ⟨_, _, ht, fun s' h => ?_⟩⟩
    cases h
    exact hs.kind_eq ▸ Session.control_open _ f hs.not_closed
  | close hop hm =>
    rw [hop]
    exact ⟨trivial, .inl rfl⟩

/-- **The bytes of legal frames** do what the session does with the frames. -/
theorem foldlM_step_frames {u : Unfinished} {fs : List Frame} {ms : List Message}
    (h : Says u fs ms) (hr : Ready t s)
    (hs : s.Open (u.map Prod.fst)) (hm : ∀ f ∈ fs, f.maskingKey.isSome = t.serverSide) :
    FrameFollows ((fs.flatMap Frame.bytes).foldlM step t) (fs.foldlM Session.frame s) := by
  induction fs generalizing u ms t s with
  | nil => exact ⟨t, rfl, hr⟩
  | cons f fs ih =>
    obtain ⟨hc, hrs⟩ := says_cons h hs
    have hf := foldlM_step_frame hr hs.not_closed hc (hm f (.head _))
    rw [List.flatMap_cons, List.foldlM_append, foldlM_cons]
    cases hfr : s.frame f with
    | error e =>
      rw [hfr] at hf
      obtain ⟨t', ht'⟩ := hf
      rw [ht']
      exact ⟨t', rfl⟩
    | ok s' =>
      rw [hfr] at hf
      obtain ⟨t', ht', hr'⟩ := hf
      rw [ht']
      rcases hrs with rfl | ⟨u', ms', htl, ho⟩
      · exact ⟨t', rfl, hr'⟩
      · refine ih htl hr' (ho s' hfr) fun f' hf' => ?_
        rw [(foldlM_step_inv hr.inv ht').serverSide_eq]
        exact hm f' (.tail _ hf')

end Http.WebSocketProtocolTransformer
