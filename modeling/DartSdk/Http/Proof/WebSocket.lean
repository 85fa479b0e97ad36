import DartSdk.Http.Proof.WebSocketFrames
import DartSdk.Convert.Proof.Utf8WellFormed

/-!
# The WebSocket transformer and the protocol

What the sink of the transformer is told for a legal sequence of frames.

* `addAll_iff`: it is told what the frames say, however the stream is cut into chunks, if and only if
  no control frame with a payload comes while the unfinished message has bytes, and no text begins
  with a byte order mark.
* `addAll_pingBetweenFragments`: a ping between two fragments takes the bytes of the message.
-/

namespace Http.WebSocketProtocolTransformer

open WebSocketFrames Utf8 Convert.Utf8Decoder List Session

/-! ## What the sink should be told -/

/-- A payload of `null` is an empty one. -/
def payloadOf (bytes : List UInt8) : Option (List UInt8) := if bytes = [] then none else some bytes

def eventOf : Message → WebSocketEvent
  | .text characters => .text (Utf16.encode characters)
  | .binary bytes => .binary bytes
  | .ping payload => .ping (payloadOf payload)
  | .pong payload => .pong (payloadOf payload)
  | .close code reason => .close code (Utf16.encode reason)

/-- The text of the message begins with a byte order mark. -/
def beginsWithBom : Message → Prop
  | .text cs | .close _ cs => cs.head? = some bomChar
  | _ => False

instance : DecidablePred beginsWithBom
  | .text cs | .close _ cs => inferInstanceAs (Decidable (cs.head? = some bomChar))
  | .binary _ | .ping _ | .pong _ => inferInstanceAs (Decidable False)

/-- No control frame with a payload comes while the unfinished message has bytes. -/
def Undisturbed : List UInt8 → List Frame → Prop
  | _, [] => True
  | bytes, f :: fs =>
    if f.opcode.isControl then (f.payload = [] ∨ bytes = []) ∧ Undisturbed bytes fs
    else Undisturbed (if f.fin then [] else bytes ++ f.payload) fs

instance decidableUndisturbed : (bytes : List UInt8) → (fs : List Frame) →
    Decidable (Undisturbed bytes fs)
  | _, [] => inferInstanceAs (Decidable True)
  | bytes, f :: fs =>
    let _ := decidableUndisturbed bytes fs
    let _ := decidableUndisturbed (if f.fin then [] else bytes ++ f.payload) fs
    inferInstanceAs (Decidable (if f.opcode.isControl then
      (f.payload = [] ∨ bytes = []) ∧ Undisturbed bytes fs
      else Undisturbed (if f.fin then [] else bytes ++ f.payload) fs))

/-! ## Text -/

theorem utf8Decode_encode (cs : List Char) :
    Session.utf8Decode (encode cs) = .ok (Utf16.encode (dropBom cs)) := by
  have h : decodeSingle false (encode cs) = .ok (Utf16.encode (dropBom cs)) := by
    rw [decodeSingle_eq]
    exact outcomeOfAll_strict.2 ⟨cs, rfl, rfl⟩
  rw [Session.utf8Decode, h]

variable {bytes : List UInt8} {f : Frame} {fs : List Frame} {s : Session} {kind : Kind}
  {m : Message} {evs : List WebSocketEvent} {P : Prop}
  {ev : Option (List UInt8) → WebSocketEvent} {code : Nat}

theorem utf8Decode_ok {text : Convert.Text} (h : Session.utf8Decode bytes = .ok text) :
    ∃ cs, bytes = encode cs ∧ text = Utf16.encode (dropBom cs) := by
  unfold Session.utf8Decode at h
  split at h
  next text' hd =>
    cases h
    rw [decodeSingle_eq] at hd
    exact outcomeOfAll_strict.1 hd
  · cases h

theorem dropBom_eq_iff {cs : List Char} : dropBom cs = cs ↔ cs.head? ≠ some bomChar := by
  cases cs with
  | nil => simp [dropBom]
  | cons c cs =>
    rw [dropBom]
    split_ifs with h
    · simp [h]
    · simp [h]

theorem encode_dropBom_iff {cs : List Char} :
    Utf16.encode (dropBom cs) = Utf16.encode cs ↔ cs.head? ≠ some bomChar := by
  rw [← dropBom_eq_iff]
  exact ⟨Utf16.encode_injective, fun h => by rw [h]⟩

/-! ## Sessions -/

namespace Session

variable {s' s1 : Session}

/-- The session goes through the frames and puts out these events. -/
def Tells (s : Session) (fs : List Frame) (evs : List WebSocketEvent) : Prop :=
  ∃ s', fs.foldlM frame s = .ok s' ∧ s'.events = s.events ++ evs

theorem tells_cons (hf : s.frame f = .ok s1)
    (he : s1.events = s.events) : s.Tells (f :: fs) evs ↔ s1.Tells fs evs := by
  unfold Tells
  rw [foldlM_cons, hf, he]
  rfl

theorem tells_cons_event {ev ev' : WebSocketEvent} (hf : s.frame f = .ok s1)
    (he : s1.events = s.events ++ [ev']) :
    s.Tells (f :: fs) (ev :: evs) ↔ ev' = ev ∧ s1.Tells fs evs := by
  unfold Tells
  rw [foldlM_cons, hf]
  constructor
  · rintro ⟨s', hrn, heq⟩
    obtain ⟨rest, hr⟩ := (run_ends ..).of_ok hrn
    rw [← hr, he, append_assoc, singleton_append] at heq
    have hc := append_cancel_left heq
    rw [cons.injEq] at hc
    refine ⟨hc.1, s', hrn, ?_⟩
    rw [← hr, hc.2]
  · rintro ⟨rfl, s', hrn, heq⟩
    exact ⟨s', hrn, by rw [heq, he, append_assoc, singleton_append]⟩

theorem frame_kind (s : Session) (hop : f.opcode = kind.opcode) : s.frame f = s.message kind f := by
  unfold frame
  rw [hop]
  cases kind <;> rfl

theorem frame_continuation (hop : f.opcode = .continuation) (hk : s.kind = some kind) :
    s.frame f = s.message kind f := by
  unfold frame
  rw [hop, hk]

theorem message_more (s : Session) (hfn : f.fin = false) :
    s.message kind f = .ok { s with kind := some kind, payload := s.payload ++ f.payload } := by
  unfold message
  rw [if_neg (by rw [hfn]; nofun)]

theorem message_last {m : Message} (hfn : f.fin = true) (hm : kind.Says (s.payload ++ f.payload) m) :
    ∃ ev, (ev = eventOf m ↔ ¬beginsWithBom m) ∧ s.message kind f =
      .ok { s with kind := none, payload := [], events := s.events ++ [ev] } := by
  unfold message
  rw [if_pos hfn]
  generalize s.payload ++ f.payload = bytes at hm
  cases hm with
  | text cs =>
    refine ⟨.text (Utf16.encode (dropBom cs)), ?_, ?_⟩
    · rw [eventOf, WebSocketEvent.text.injEq, encode_dropBom_iff]
      rfl
    · dsimp only
      rw [utf8Decode_encode]
      rfl
  | binary bytes => exact ⟨.binary bytes, ⟨fun _ => id, fun _ => rfl⟩, rfl⟩

end Session

/-! ## Control frames -/

/-- The bytes of an unfinished message. -/
def bytesOf : Unfinished → List UInt8
  | none => []
  | some (_, bytes) => bytes

theorem undisturbed_message (h : f.opcode.isControl = false) :
    Undisturbed bytes (f :: fs) ↔ Undisturbed (if f.fin then [] else bytes ++ f.payload) fs := by
  rw [Undisturbed, if_neg (by rw [h]; nofun)]

theorem undisturbed_control (h : f.opcode.isControl = true) :
    Undisturbed bytes (f :: fs) ↔ (f.payload = [] ∨ bytes = []) ∧ Undisturbed bytes fs := by
  rw [Undisturbed, if_pos h]

theorem isControl_kind (kind : Kind) : kind.opcode.isControl = false := by cases kind <;> rfl

section
variable (hf : s.frame f = s.message kind f) (hcontrol : f.opcode.isControl = false)
include hf hcontrol

/-- A frame of a message before its last one. -/
theorem more_iff (hfn : f.fin = false)
    (ih : ∀ s' : Session, s'.kind = some kind → s'.payload = s.payload ++ f.payload →
      (s'.Tells fs evs ↔ Undisturbed (s.payload ++ f.payload) fs ∧ P)) :
    s.Tells (f :: fs) evs ↔ Undisturbed s.payload (f :: fs) ∧ P := by
  rw [tells_cons (hf.trans (s.message_more hfn)) rfl, undisturbed_message hcontrol, hfn]
  exact ih _ rfl rfl

/-- The last frame of a message tells it, up to a byte order mark. -/
theorem last_iff (hfn : f.fin = true) (hm : kind.Says (s.payload ++ f.payload) m)
    (ih : ∀ s' : Session, s'.kind = none → s'.payload = [] →
      (s'.Tells fs evs ↔ Undisturbed [] fs ∧ P)) :
    s.Tells (f :: fs) (eventOf m :: evs) ↔
      Undisturbed s.payload (f :: fs) ∧ ¬beginsWithBom m ∧ P := by
  obtain ⟨ev, he, hl⟩ := message_last hfn hm
  rw [tells_cons_event (hf.trans hl) rfl, undisturbed_message hcontrol, hfn, if_pos rfl,
    he, ih _ rfl rfl]
  exact and_left_comm

end

/-- A ping or a pong tells its payload if and only if it does not disturb a message. -/
theorem control_tells (hi : ∀ x y, ev x = ev y → x = y)
    (hf : s.frame f = .ok (s.control ev f)) :
    s.Tells (f :: fs) (ev (payloadOf f.payload) :: evs) ↔
      (f.payload = [] ∨ s.payload = []) ∧ (s.control ev f).Tells fs evs := by
  unfold Session.control at hf ⊢
  by_cases he : f.payload = []
  · rw [if_pos he] at hf ⊢
    rw [tells_cons_event hf rfl, payloadOf, if_pos he]
    simp [he]
  rw [if_neg he] at hf ⊢
  rw [tells_cons_event hf rfl, payloadOf, if_neg he]
  refine and_congr_left fun _ => ?_
  constructor
  · intro heq
    have hb := Option.some.inj (hi _ _ heq)
    exact .inr (append_left_eq_self.1 hb)
  · rintro (h | h)
    · exact absurd h he
    · rw [h, nil_append]

theorem control_kind (s : Session) (ev : Option (List UInt8) → WebSocketEvent) (f : Frame) :
    (s.control ev f).kind = s.kind := by
  unfold Session.control
  split_ifs <;> rfl

theorem control_payload (h : f.payload = [] ∨ s.payload = []) :
    (s.control ev f).payload = s.payload := by
  unfold Session.control
  split_ifs with he
  · rfl
  · exact (h.resolve_left he).symm

/-- A ping or a pong before other frames. -/
theorem control_iff (hi : ∀ x y, ev x = ev y → x = y)
    (hf : s.frame f = .ok (s.control ev f)) (hcontrol : f.opcode.isControl = true)
    (ih : ∀ s' : Session, s'.kind = s.kind → s'.payload = s.payload →
      (s'.Tells fs evs ↔ Undisturbed s.payload fs ∧ P)) :
    s.Tells (f :: fs) (ev (payloadOf f.payload) :: evs) ↔ Undisturbed s.payload (f :: fs) ∧ P := by
  rw [control_tells hi hf, undisturbed_control hcontrol, and_assoc]
  exact and_congr_right fun h => ih _ (control_kind s ev f) (control_payload h)

/-! ## Close frames -/

theorem statusBytes (h : code < 2 ^ 16) :
    ((UInt8.ofNat (code / 256 ^ 1 % 256)).toNat <<< 8) |||
      (UInt8.ofNat (code / 256 ^ 0 % 256)).toNat = code := by
  have hhg : (UInt8.ofNat (code / 256 ^ 1 % 256)).toNat = code / 256 := by
    rw [UInt8.toNat_ofNat', Nat.pow_one]
    omega
  have hl : (UInt8.ofNat (code / 256 ^ 0 % 256)).toNat = code % 256 := by
    rw [UInt8.toNat_ofNat', Nat.pow_zero, Nat.div_one]
    omega
  rw [hhg, hl, ← Nat.shiftLeft_add_eq_or_of_lt (Nat.mod_lt _ (by decide)), Nat.shiftLeft_eq]
  omega

theorem closing_status (h : isStatusCode code) (rsn : List Char) :
    closing (bigEndian code 2 ++ encode rsn) = .ok (code, Utf16.encode (dropBom rsn)) := by
  obtain ⟨-, hlt, hne, -, -⟩ := h
  simp only [bigEndian, cons_append, nil_append, closing, statusBytes (show code < 2 ^ 16 by omega)]
  rw [if_neg (by exact hne)]
  cases rsn with
  | nil => rfl
  | cons c rsn =>
    have hn : encode (c :: rsn) ≠ [] := by
      rw [encode_cons]
      exact fun h => String.utf8EncodeChar_ne_nil (append_eq_nil_iff.1 h).1
    rw [if_pos hn, utf8Decode_encode]
    rfl

/-- After bytes of a message the code and the reason cannot be read. -/
theorem closing_disturbed (hb : bytes ≠ []) (h : isStatusCode code) (rsn : List Char) :
    closing (bytes ++ (bigEndian code 2 ++ encode rsn)) ≠ .ok (code, Utf16.encode rsn) := by
  have hp : 0 < bytes.length := length_pos_iff.2 hb
  have hl : (bytes ++ (bigEndian code 2 ++ encode rsn)).length =
      bytes.length + 2 + (encode rsn).length := by
    simp only [length_append, bigEndian, length_cons, length_nil]
    omega
  intro hcl
  rcases hsp : bytes ++ (bigEndian code 2 ++ encode rsn) with _ | ⟨high, _ | ⟨low, rest⟩⟩
  · rw [hsp, length_nil] at hl; omega
  · rw [hsp, length_singleton] at hl; omega
  · rw [hsp] at hcl hl
    simp only [length_cons] at hl
    unfold closing at hcl
    dsimp only at hcl
    split_ifs at hcl with hcd hrs
    · obtain ⟨text, ht, heq⟩ := Fallible.map_eq_ok hcl
      obtain ⟨cs, rfl, rfl⟩ := utf8Decode_ok ht
      have hr : dropBom cs = rsn := Utf16.encode_injective (Prod.mk.inj heq).2
      cases cs with
      | nil => exact absurd rfl hrs
      | cons c cs =>
        rw [dropBom] at hr
        split_ifs at hr with hc
        · -- Only the code 0xBBBF could be read again from the bytes of a byte order mark.
          subst hc hr
          rw [encode_cons, encode_bomChar, ← append_assoc, show high :: low :: (bom ++ encode cs) =
              [high, low, 0xEF, 0xBB, 0xBF] ++ encode cs from rfl] at hsp
          have hcn := append_cancel_right hsp
          have hth : bytes.length = 3 := by
            have hln := congrArg List.length hcn
            rw [length_append] at hln
            simpa [bigEndian] using hln
          obtain ⟨x, y, z, rfl⟩ := length_eq_three.1 hth
          simp only [bigEndian, cons_append, nil_append, cons.injEq] at hcn
          have hhg := congrArg UInt8.toNat hcn.2.2.2.1
          have hlt := h.2.1
          rw [UInt8.toNat_ofNat', Nat.pow_one, show (0xBB : UInt8).toNat = 187 from rfl] at hhg
          omega
        · rw [hr] at hl
          omega
    · rw [not_not.1 hrs, length_nil] at hl
      omega

/-- A close frame tells its code and reason if and only if it does not come after bytes of a message
and the reason does not begin with a byte order mark. -/
theorem close_tells (hop : f.opcode = .close) (hm : CloseSays f.payload m) :
    s.Tells [f] [eventOf m] ↔ (f.payload = [] ∨ s.payload = []) ∧ ¬beginsWithBom m := by
  have hfr : s.frame f = s.close f := by rw [frame, hop]
  generalize hpy : f.payload = payload at hm
  cases hm with
  | empty =>
    have hc : s.frame f = .ok { s with
        closed := true, events := s.events ++ [.close noStatusReceived []] } := by
      rw [hfr, close, if_pos hpy]
    rw [tells_cons_event hc rfl]
    refine iff_of_true ⟨rfl, ?_⟩ ⟨.inl rfl, ?_⟩
    · exact ⟨_, rfl, (List.append_nil _).symm⟩
    · rintro ⟨⟩
  | @status code reason hcd =>
    have hne : f.payload ≠ [] := by rw [hpy]; exact cons_ne_nil _ _
    have hc : s.frame f = (closing (s.payload ++ f.payload)).map fun p =>
        { s with payload := [], closed := true, events := s.events ++ [.close p.1 p.2] } := by
      rw [hfr, close, if_neg hne]
    rw [hpy] at hc hne
    by_cases hem : s.payload = []
    · rw [hem, nil_append, closing_status hcd] at hc
      rw [tells_cons_event hc rfl, eventOf, WebSocketEvent.close.injEq, encode_dropBom_iff]
      constructor
      · rintro ⟨⟨-, hbm⟩, -⟩
        exact ⟨.inr hem, hbm⟩
      · rintro ⟨-, hbm⟩
        exact ⟨⟨rfl, hbm⟩, _, rfl, (List.append_nil _).symm⟩
    · refine iff_of_false ?_ fun hb => hb.1.elim hne hem
      rintro ⟨s', hr, hen⟩
      rw [foldlM_cons, hc] at hr
      cases hcl : closing (s.payload ++ (bigEndian code 2 ++ encode reason)) with
      | error e => rw [hcl] at hr; cases hr
      | ok p =>
        rw [hcl] at hr
        cases hr
        have hev := append_cancel_left hen
        rw [cons.injEq, eventOf, WebSocketEvent.close.injEq] at hev
        refine closing_disturbed hem hcd reason (hcl.trans ?_)
        rw [← hev.1.1, ← hev.1.2]

/-! ## Legal sequences -/

/-- **A session tells what the frames say** if and only if no control frame disturbs a message and no
text begins with a byte order mark. -/
theorem tells_iff {u : Unfinished} {ms : List Message} (h : Says u fs ms)
    (hkn : s.kind = u.map Prod.fst) (hpy : s.payload = bytesOf u) :
    s.Tells fs (ms.map eventOf) ↔ Undisturbed (bytesOf u) fs ∧ ∀ m ∈ ms, ¬beginsWithBom m := by
  rw [← hpy]
  induction h generalizing s with
  | nil u => exact iff_of_true ⟨s, rfl, (List.append_nil _).symm⟩ ⟨trivial, by simp⟩
  | @first f fs ms kind hop hfn _ ih =>
    refine more_iff (s.frame_kind hop) (by rw [hop, isControl_kind]) hfn fun s' hk hp => ?_
    rw [← hp]
    exact ih hk (by rw [hp, hpy]; rfl)
  | @next f fs ms kind bytes hop hfn _ ih =>
    refine more_iff (frame_continuation hop hkn) (by rw [hop]; rfl) hfn
      fun s' hk hp => ?_
    rw [← hp]
    exact ih hk (by rw [hp, hpy]; rfl)
  | @only f fs m ms kind hop hfn hm _ ih =>
    rw [map_cons, forall_mem_cons]
    refine last_iff (s.frame_kind hop) (by rw [hop, isControl_kind]) hfn (by rw [hpy]; exact hm)
      fun s' hk hp => ?_
    rw [← hp]
    exact ih hk hp
  | @last f fs m ms kind bytes hop hfn hm _ ih =>
    rw [map_cons, forall_mem_cons]
    refine last_iff (frame_continuation hop hkn) (by rw [hop]; rfl) hfn
      (by rw [hpy]; exact hm) fun s' hk hp => ?_
    rw [← hp]
    exact ih hk hp
  | @ping u f fs ms hop _ ih =>
    have hf : s.frame f = .ok (s.control .ping f) := by rw [frame, hop]
    rw [map_cons, forall_mem_cons]
    refine (control_iff (fun _ _ => WebSocketEvent.ping.inj) hf (by rw [hop]; rfl)
      fun s' hk hp => ?_).trans (and_congr_right fun _ => (and_iff_right (by rintro ⟨⟩)).symm)
    rw [← hp]
    exact ih (hk.trans hkn) (hp.trans hpy)
  | @pong u f fs ms hop _ ih =>
    have hf : s.frame f = .ok (s.control .pong f) := by rw [frame, hop]
    rw [map_cons, forall_mem_cons]
    refine (control_iff (fun _ _ => WebSocketEvent.pong.inj) hf (by rw [hop]; rfl)
      fun s' hk hp => ?_).trans (and_congr_right fun _ => (and_iff_right (by rintro ⟨⟩)).symm)
    rw [← hp]
    exact ih (hk.trans hkn) (hp.trans hpy)
  | @close u f m hop hm =>
    rw [map_singleton, close_tells hop hm, undisturbed_control (by rw [hop]; rfl),
      forall_mem_singleton]
    simp [Undisturbed]

/-- A transformer before the first chunk. -/
def create (serverSide : Bool) (deflate : Option (List UInt8 → List UInt8)) :
    WebSocketProtocolTransformer :=
  { serverSide := serverSide, deflate := deflate }

theorem ready_create (srv : Bool) (dfl : Option (List UInt8 → List UInt8)) :
    Ready (create srv dfl) {} :=
  ⟨rfl, rfl, rfl, rfl, rfl, fun _ => rfl, fun _ => rfl, rfl, rfl⟩

/-- The chunks put these events into the sink. -/
def Receives (t : WebSocketProtocolTransformer) (chunks : List Chunk)
    (evs : List WebSocketEvent) : Prop :=
  ∃ t', t.addAll chunks = .ok t' ∧ t'.events = evs

theorem receives_iff_tells {srv : Bool} (dfl : Option (List UInt8 → List UInt8))
    {fr : List Frame} {ms : List Message} (htl : Says none fr ms)
    (hm : ∀ f ∈ fr, f.maskingKey.isSome = srv) {cs : List Chunk}
    (hb : cs.flatMap Chunk.bytes = fr.flatMap Frame.bytes)
    (hne : ∀ c ∈ cs, c.bytes ≠ [])
    (ha : srv = true → ∀ c ∈ cs, c.offsetInBytes % 16 = 0)
    (evs : List WebSocketEvent) : Receives (create srv dfl) cs evs ↔ Tells {} fr evs := by
  have hr := ready_create srv dfl
  have hch := addAll_follows ha (.inl hne) (.refl _) hr.inv
  have hfr := foldlM_step_frames htl hr ⟨rfl, rfl⟩ hm
  rw [hb] at hch
  unfold Receives Tells
  cases hrn : fr.foldlM frame {} with
  | ok s =>
    rw [hrn] at hfr
    obtain ⟨t', ht', hr'⟩ := hfr
    rw [ht'] at hch
    obtain ⟨t, ht, hl⟩ := hch
    have hev : t.events = s.events := by
      rw [← hr'.events, hl.eq_withIndex]
      rfl
    rw [ht]
    constructor
    · rintro ⟨_, heq, rfl⟩
      cases heq
      exact ⟨s, rfl, hev.symm⟩
    · rintro ⟨_, heq, rfl⟩
      cases heq
      exact ⟨t, rfl, hev⟩
  | error e =>
    rw [hrn] at hfr
    obtain ⟨t', ht'⟩ := hfr
    rw [ht'] at hch
    obtain ⟨t, ht⟩ := hch.resolve_left ((run_ends ..).of_error hrn)
    rw [ht]
    constructor <;> rintro ⟨_, heq, -⟩ <;> cases heq

/-- **The transformer receives what legal frames say**, however the stream is cut into chunks, if and
only if no control frame with a payload comes while the unfinished message has bytes, and no text
begins with a byte order mark. Chunks with masked frames begin at multiples of 16 in memory. -/
theorem addAll_iff {serverSide : Bool} (deflate : Option (List UInt8 → List UInt8))
    {frames : List Frame} {ms : List Message} (htold : Says none frames ms)
    (hmasked : ∀ f ∈ frames, f.maskingKey.isSome = serverSide) {chunks : List Chunk}
    (hbytes : chunks.flatMap Chunk.bytes = frames.flatMap Frame.bytes)
    (hne : ∀ c ∈ chunks, c.bytes ≠ [])
    (haligned : serverSide = true → ∀ c ∈ chunks, c.offsetInBytes % 16 = 0) :
    Receives (create serverSide deflate) chunks (ms.map eventOf) ↔
      Undisturbed [] frames ∧ ∀ m ∈ ms, ¬beginsWithBom m := by
  rw [receives_iff_tells deflate htold hmasked hbytes hne haligned]
  exact tells_iff htold rfl rfl

/-! ## Frames that show the difference -/

/-- A message in two fragments and a ping between them. -/
def pingBetweenFragments (payload : List UInt8) (h : payload.length ≤ 125) : List Frame :=
  [⟨false, .text, none, [0x61], by decide, by decide, by decide⟩,
    ⟨true, .ping, none, payload, by omega, fun _ => h, by decide⟩,
    ⟨true, .continuation, none, [0x62], by decide, by decide, by decide⟩]

theorem says_pingBetweenFragments (pl : List UInt8) (h : pl.length ≤ 125) :
    Says none (pingBetweenFragments pl h) [.ping pl, .text ['a', 'b']] :=
  .first .text rfl rfl (.ping rfl (.last rfl rfl (Kind.Says.text ['a', 'b']) (.nil none)))

/-- The ping gets the bytes of the first fragment, and the message loses them. -/
theorem addAll_pingBetweenFragments :
    Says none (pingBetweenFragments [0x70] (by decide)) [.ping [0x70], .text ['a', 'b']] ∧
    ((create false none).addAll
        [⟨(pingBetweenFragments [0x70] (by decide)).flatMap Frame.bytes, 0⟩]).toOption.map
      WebSocketProtocolTransformer.events = some [.ping (some [0x61, 0x70]), .text [0x62]] ∧
    ¬Receives (create false none)
      [⟨(pingBetweenFragments [0x70] (by decide)).flatMap Frame.bytes, 0⟩]
      ([.ping [0x70], .text ['a', 'b']].map eventOf) := by
  have he : ((create false none).addAll
      [⟨(pingBetweenFragments [0x70] (by decide)).flatMap Frame.bytes, 0⟩]).toOption.map
      WebSocketProtocolTransformer.events = some [.ping (some [0x61, 0x70]), .text [0x62]] := by
    decide +kernel
  refine ⟨says_pingBetweenFragments _ _, he, ?_⟩
  rintro ⟨t, ht, htv⟩
  rw [ht] at he
  have heq := Option.some.inj he
  rw [htv] at heq
  exact absurd heq (by decide +kernel)

/-- An empty ping between the fragments disturbs nothing. -/
theorem addAll_emptyPing :
    Receives (create false none) [⟨[0x01, 0x01], 0⟩, ⟨[0x61, 0x89, 0x00, 0x80, 0x01, 0x62], 5⟩]
      [.ping none, .text [0x61, 0x62]] :=
  (@addAll_iff false none _ _ (says_pingBetweenFragments [] (by decide)) (by decide)
    [⟨[0x01, 0x01], 0⟩, ⟨[0x61, 0x89, 0x00, 0x80, 0x01, 0x62], 5⟩] (by decide) (by decide)
    nofun).2 (by decide)

end Http.WebSocketProtocolTransformer
