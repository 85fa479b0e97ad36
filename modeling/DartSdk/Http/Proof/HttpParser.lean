import DartSdk.Http.Proof.HttpParserFields

/-!
# How the HTTP parser delimits the bodies of requests

* `foldlM_head`: the framing of the body after a head.
* `foldlM_body`: the parser reads a body of its framing up to the end and is then between two
  messages.
* `onDataAll_delimits`: for which heads this is the framing of the protocol.
* `onDataAll_smuggled`: a request that is read as two.
-/

namespace Http.HttpParser

open CharCode Fallible HttpMessage List Option

variable {Uri : Type} {parseUri : List UInt8 → Option Uri} {p p' q : HttpParser Uri}
  {closed : List (HttpIncoming Uri)} {fs : List Field} {m : HttpIncoming Uri}

/-! ## The end of a head -/

/-- The header fields, up to the line after them. -/
theorem foldlM_fields {bef : List Field} (hp : AtLine p)
    (hn : ∀ q, Opens p q → Noted closed bef q) (hr : p.remainingContent = -1)
    (h : (fs.flatMap Field.bytes).foldlM (step parseUri) p = .ok p') :
    AtLine p' ∧ p'.remainingContent = -1 ∧ ∀ q, Opens p' q → Noted closed (bef ++ fs) q := by
  induction fs generalizing p bef with
  | nil =>
    cases h
    rw [List.append_nil]
    exact ⟨hp, hr, hn⟩
  | cons f fs ih =>
    rw [flatMap_cons] at h
    obtain ⟨p1, h1, h⟩ := foldlM_append_eq_ok h
    obtain ⟨q, ho, hc⟩ := foldlM_field hp hr h1
    have hq := hn q ho
    have hp1 := hc hq.headerField hq.headerValue
    rw [show bef ++ f :: fs = bef ++ [f] ++ fs by
      rw [append_assoc, singleton_append]]
    refine ih ?_ (fun q' ho' => ?_) ?_ h
    · obtain ⟨size, rfl⟩ := hp1
      exact .inr rfl
    · refine hq.field hp1 ?_
      obtain ⟨size, rfl⟩ := hp1
      rcases ho' with ⟨hs, -⟩ | ⟨-, he⟩
      · cases hs
      · exact he
    · obtain ⟨size, rfl⟩ := hp1
      exact hq.remainingContent

theorem foldlM_emptyLine {crlf : Bool} (hp : AtLine p) (hrm : p.remainingContent = -1)
    (h : (eol crlf).foldlM (step parseUri) p = .ok p') :
    ∃ q next, Opens p q ∧ (q.withState .headerEnding).headersEnd parseUri = .ok (p', next) := by
  have hs : Sound p ∧ p.state ≠ .upgraded ∧ p.state ≠ .body := by
    rcases hp with hs | hs <;> (rw [Sound, hs]; exact ⟨hrm, by simp, by simp⟩)
  have he {q : HttpParser Uri} {next : Next}
      (h : (q.withState .headerEnding).readByte parseUri LF = .ok (p', next)) :
      (q.withState .headerEnding).headersEnd parseUri = .ok (p', next) := by
    have hrd : readHeaderEnding parseUri (q.withState .headerEnding) LF = .ok (p', next) := h
    rw [readHeaderEnding] at hrd
    obtain ⟨-, -, hrd⟩ := bind_eq_ok hrd
    exact hrd
  cases crlf with
  | true =>
    obtain ⟨p1, h1, h⟩ := foldlM_cons_eq_ok h
    obtain ⟨p2, h2, h⟩ := foldlM_cons_eq_ok h
    cases h
    obtain ⟨next, h1⟩ := step_eq_ok hs.1 hs.2.1 hs.2.2 (by decide) h1
    obtain ⟨q, ho, h1⟩ := readByte_atLine hp (by decide) h1
    cases h1
    obtain ⟨next', h2⟩ := step_ending (by trivial) h2
    exact ⟨q, next', ho, he h2⟩
  | false =>
    obtain ⟨p1, h1, h⟩ := foldlM_cons_eq_ok h
    cases h
    rw [step_eq_settle hs.2.1 hs.2.2, settle] at h1
    split at h1
    · cases h1
    next q' hrd =>
      obtain ⟨q, ho, hl⟩ := readByte_atLine hp (by decide) hrd
      cases hl
      obtain ⟨⟨r, next⟩, hr, rfl⟩ := map_eq_ok h1
      exact ⟨q, next, ho, he hr⟩
    next q' next hne hrd =>
      obtain ⟨q, ho, hl⟩ := readByte_atLine hp (by decide) hrd
      cases hl
      exact absurd rfl hne

/-! ## The framing -/

/-- How the parser delimits the body when it has read a head. After an upgrade it takes the body to
be empty and does not read what comes. -/
def framing (p : HttpParser Uri) : Option Framing :=
  match p.state with
  | .chunkSize => some .chunked
  | .body => some (.length p.remainingContent.toNat)
  | .start | .upgraded => some (.length 0)
  | _ => none

/-- The length that the parser takes. -/
def parsedLength : List Field → Nat
  | [f] => (decimal f.value).getD 0
  | _ => 0

/-- The framing that the parser takes. -/
def parsedFraming (fs : List Field) : Framing :=
  if fs.any asksUpgrade then .length 0
  else if fs.any saysChunked then .chunked
  else .length (parsedLength (earlyLengths fs))

/-- The message is complete and the parser is between two messages, or the connection is not a
connection of HTTP any more. -/
def Ended (closed : List (HttpIncoming Uri)) (payload : List UInt8) (p : HttpParser Uri) : Prop :=
  ∃ m : HttpIncoming Uri, m.data = payload ∧
    (Idle (closed ++ [m]) p ∨ p.state = .upgraded ∧ p.closed = closed ++ [m])

/-- The body of a message is not finished. -/
structure InBody (closed : List (HttpIncoming Uri)) (state : State) (remaining : Int)
    (chunked : Bool) (data : List UInt8) (p : HttpParser Uri) : Prop where
  requestParser : p.requestParser = true
  state_eq : p.state = state
  remaining_eq : p.remainingContent = remaining
  chunked_eq : p.chunked = chunked
  closed_eq : p.closed = closed
  incoming_eq : ∃ m, p.incoming = some m ∧ m.data = data

/-- The parser at the beginning of a body. -/
def Begins (closed : List (HttpIncoming Uri)) (p : HttpParser Uri) : Framing → Prop
  | .chunked => InBody closed .chunkSize 0 true [] p
  | .length 0 => Ended closed [] p
  | .length (n + 1) => InBody closed .body (n + 1 : Nat) false [] p

theorem Begins.framing_eq {fr : Framing} (h : Begins closed p fr) : framing p = some fr := by
  match fr, h with
  | .chunked, h => rw [framing, h.state_eq]
  | .length 0, h =>
    obtain ⟨m, -, hi | hu⟩ := h
    · rw [framing, hi.state]
    · rw [framing, hu.1]
  | .length (n + 1), h =>
    rw [framing, h.state_eq]
    simp [h.remaining_eq]

/-- A message ends. -/
theorem ended_reset (hr : p.requestParser = true)
    (hs : p.state ≠ .upgraded) (hi : p.incoming = some m) (hc : p.closed = closed) :
    Ended closed m.data p.reset.closeIncoming := by
  refine ⟨m, rfl, .inl ?_⟩
  unfold reset
  rw [if_neg hs]
  refine ⟨rfl, hr, rfl, rfl, rfl, rfl, rfl, rfl, rfl, rfl, ?_⟩
  rw [hi, hc]
  rfl

theorem LengthOf.lengthFraming_eq {lens : List Field} {n : Int} (h : LengthOf lens n) :
    lengthFraming lens = some (.length (parsedLength lens)) ∧
      (if n < 0 then 0 else n) = (parsedLength lens : Int) := by
  match lens, h with
  | [], h =>
    obtain rfl : n = -1 := h
    exact ⟨rfl, rfl⟩
  | [f], ⟨k, hk, hn⟩ =>
    rw [hn, lengthFraming, parsedLength, hk]
    exact ⟨rfl, if_neg (by omega)⟩

/-- What the parser takes for the transfer length. -/
def lengthOfFraming : Framing → Int
  | .chunked => -1
  | .length n => n

theorem Noted.decideTransferLength_eq (hq : Noted closed fs q) {h : HttpHeaders}
    (hn : HeadersNoted fs h) : q.decideTransferLength h = lengthOfFraming (parsedFraming fs) := by
  rw [decideTransferLength, hq.connectionUpgrade, hq.chunked, parsedFraming]
  by_cases hu : fs.any asksUpgrade = true
  · rw [if_pos hu, if_pos hu]
    rfl
  by_cases hsy : fs.any saysChunked = true
  · rw [if_neg hu, if_neg hu, if_pos hsy, if_pos hsy]
    rfl
  rw [if_neg hu, if_neg hu, if_neg hsy, if_neg hsy, lengthOfFraming,
    ← (hn.length (by simpa using hsy)).lengthFraming_eq.2]
  simp [hq.messageType]

theorem startBody_begins (headers : HttpHeaders)
    (hq : Noted closed fs q) (hm : m.data = []) {p : HttpParser Uri}
    (hp : p = { q with
      state := .headerEnding
      headers := some headers
      transferLength := lengthOfFraming (parsedFraming fs) }) :
    Begins closed (p.startBody m).1 (parsedFraming fs) := by
  have hr : p.requestParser = true := by rw [hp]; exact hq.requestParser
  have hs : p.state = .headerEnding := by rw [hp]
  have hc : p.closed = closed := by rw [hp]; exact hq.closed_eq
  have ha : p.connectionUpgrade = fs.any asksUpgrade := by
    rw [hp]
    exact hq.connectionUpgrade
  have hch : p.chunked = fs.any saysChunked := by rw [hp]; exact hq.chunked
  have hl : p.transferLength = lengthOfFraming (parsedFraming fs) := by rw [hp]
  have hrs : ¬ (p.messageType = MessageType.RESPONSE ∧ p.noMessageBody = true) := by
    rw [hp]
    exact fun h => absurd (h.1.symm.trans hq.messageType) (by decide)
  unfold startBody
  dsimp only
  by_cases hu : fs.any asksUpgrade = true
  · rw [if_pos (ha.trans hu), parsedFraming, if_pos hu]
    refine ⟨{ m with upgraded := true }, hm, .inr ⟨rfl, ?_⟩⟩
    rw [hc]
    rfl
  rw [parsedFraming, if_neg hu] at hl ⊢
  rw [if_neg (by rw [ha]; exact hu)]
  by_cases hsy : fs.any saysChunked = true
  · rw [if_pos hsy] at hl ⊢
    rw [if_neg (by rw [hl]; exact fun h => h.elim nofun hrs), if_pos (hch.trans hsy)]
    exact ⟨hr, rfl, rfl, hch.trans hsy, hc, m, rfl, hm⟩
  rw [if_neg hsy] at hl ⊢
  generalize parsedLength (earlyLengths fs) = n at hl ⊢
  cases n with
  | zero =>
    rw [if_pos (.inl hl)]
    have he := ended_reset (p := { p with
      incoming := some m, method := [], uriOrReasonPhrase := [] }) hr
      (by rw [show HttpParser.state _ = _ from hs]; nofun) rfl hc
    rw [hm] at he
    exact he
  | succ n =>
    have hps : p.transferLength = (n + 1 : Nat) := hl
    rw [Bool.not_eq_true] at hsy
    have hnt := hch.trans hsy
    rw [if_neg (by rw [hps]; exact fun h => h.elim (by omega) hrs),
      if_neg (by rw [hnt]; nofun), if_pos (by omega)]
    exact ⟨hr, rfl, hps, hnt, hc, m, rfl, hm⟩

theorem headersEnd_begins {next : Next} (hq : Noted closed fs q)
    (h : (q.withState .headerEnding).headersEnd parseUri = .ok (p', next)) :
    Begins closed p' (parsedFraming fs) := by
  obtain ⟨headers, hhd, hn⟩ := hq.headers
  have hr : (q.withState .headerEnding).requestParser = true := hq.requestParser
  rw [headersEnd, show (q.withState .headerEnding).headers = some headers from hhd] at h
  rw [if_neg (fun hc => hc.1 hr)] at h
  obtain ⟨headers', hi, h⟩ := bind_eq_ok h
  rw [ignoreBodyHeaders, if_neg (fun hc => hc.1 hr)] at hi
  cases hi
  obtain ⟨m, hm, h⟩ := map_eq_ok h
  have hd : m.data = [] := by
    rw [createIncoming, if_pos hr] at hm
    split at hm
    · cases hm
    · cases hm
      rfl
  have hl := hq.decideTransferLength_eq hn
  rw [← show (startBody _ m).1 = p' from congrArg Prod.fst h]
  refine startBody_begins { headers with mutable := false } hq hd ?_
  rw [← hl]
  rfl

/-- **The framing of a body**, as the parser takes it from the head. -/
theorem foldlM_head {head : RequestHead} (hp : Idle closed p)
    (h : head.bytes.foldlM (step parseUri) p = .ok p') :
    Begins closed p' (parsedFraming head.fields) ∧
      ((head.fields.any saysChunked = true ∨ ∃ n, LengthOf (earlyLengths head.fields) n)) := by
  obtain ⟨p1, h1, h⟩ := foldlM_append_eq_ok h
  obtain ⟨p2, h2, h⟩ := foldlM_append_eq_ok h
  have hp1 := foldlM_requestLine hp h1
  have hf : ∀ q, Opens p1 q → Noted closed [] q := by
    rintro q (⟨-, version, -, rfl⟩ | ⟨hs, -⟩)
    · exact hp1.noted
    · rw [hp1.state] at hs
      cases hs
  obtain ⟨hl, hr, hnt⟩ :=
    foldlM_fields (.inl hp1.state) hf hp1.blank.remainingContent h2
  rw [nil_append] at hnt
  obtain ⟨q, next, ho, he⟩ := foldlM_emptyLine hl hr h
  have hq := hnt q ho
  refine ⟨headersEnd_begins hq he, ?_⟩
  obtain ⟨headers, -, hhd⟩ := hq.headers
  cases hsy : head.fields.any saysChunked with
  | true => exact .inl rfl
  | false => exact .inr ⟨_, hhd.length hsy⟩

/-! ## Chunks -/

variable {ds extension bl body pl : List UInt8}

section

variable {state : State} {remaining : Int} {data : List UInt8} {byte : UInt8} {chunked : Bool}

theorem InBody.withState (hp : InBody closed state remaining chunked data p) (st' : State) :
    InBody closed st' remaining chunked data (p.withState st') :=
  ⟨hp.1, rfl, hp.3, hp.4, hp.5, hp.6⟩

/-- The states of a chunked body, the data apart. -/
def IsChunkState : State → Prop
  | .chunkSizeStartingCr | .chunkSizeStarting | .chunkSize | .chunkSizeExtension
  | .chunkSizeEnding | .chunkedBodyDoneCr | .chunkedBodyDone => True
  | _ => False

theorem InBody.read (hp : InBody closed state remaining chunked data p) (hs : IsChunkState state)
    (hr : 0 ≤ remaining) (hlf : byte ≠ LF) (h : p.step parseUri byte = .ok p') :
    ∃ next, p.readByte parseUri byte = .ok (p', next) := by
  have hne : state ≠ .upgraded ∧ state ≠ .body := by
    constructor <;> rintro rfl <;> exact hs
  refine step_eq_ok ?_ (by rw [hp.state_eq]; exact hne.1) (by rw [hp.state_eq]; exact hne.2) hlf h
  rw [Sound, hp.state_eq, hp.remaining_eq]
  cases state <;> first | exact hr | exact hs.elim

theorem step_digit {v : Nat} (hp : InBody closed .chunkSize remaining true data p)
    (hr : 0 ≤ remaining) (hv : hexDigit byte = some v)
    (h : p.step parseUri byte = .ok p') :
    InBody closed .chunkSize (remaining * 16 + v) true data p' := by
  have hpl : ∀ byte : UInt8, (hexDigit byte).isSome = true →
      byte ≠ LF ∧ byte ≠ CR ∧ byte ≠ SEMI_COLON := by decide +kernel
  have hd : ∀ byte : UInt8, ∀ w, expectHexDigit byte = .ok w → hexDigit byte = some w := by
    intro byte w hw
    unfold expectHexDigit at hw
    unfold hexDigit
    split_ifs at hw ⊢ with h1 h2 h3
    · cases hw; rfl
    · cases hw
      have hle : 65 ≤ byte.toNat := h2.1
      exact congrArg some (by omega)
    · cases hw
      have hle : 97 ≤ byte.toNat := h3.1
      exact congrArg some (by omega)
  obtain ⟨hlf, hcr, hsm⟩ := hpl byte (by rw [hv]; rfl)
  obtain ⟨next, h⟩ := hp.read trivial hr hlf h
  rw [readByte, hp.state_eq] at h
  dsimp only [readChunkSize, lineEnd] at h
  rw [if_neg hcr, if_neg hlf, if_neg hsm] at h
  obtain ⟨w, hw, h⟩ := bind_eq_ok h
  split_ifs at h
  cases h
  obtain rfl : w = v := some.inj ((hd byte w hw).symm.trans hv)
  refine ⟨hp.1, hp.2, ?_, hp.4, hp.5, hp.6⟩
  rw [hp.remaining_eq]

theorem foldlM_digits {n : Nat} (hd : ∀ b ∈ ds, (hexDigit b).isSome)
    (hp : InBody closed .chunkSize n true data p) (h : ds.foldlM (step parseUri) p = .ok p') :
    InBody closed .chunkSize (ds.foldl (fun n b => n * 16 + (hexDigit b).getD 0) n : Nat) true data
    p' := by
  induction ds generalizing p n with
  | nil =>
    cases h
    exact hp
  | cons b ds ih =>
    obtain ⟨p1, h1, h⟩ := foldlM_cons_eq_ok h
    obtain ⟨v, hv⟩ := isSome_iff_exists.mp (hd b mem_cons_self)
    have hp1 := step_digit hp (Int.natCast_nonneg n) hv h1
    rw [foldl_cons, hv]
    exact ih (fun b hb => hd b (.tail _ hb)) (by exact_mod_cast hp1) h

theorem foldlM_extension (hr : 0 ≤ remaining)
    (hsm : extension = [] ∨ ∃ text, extension = 59 :: text) (hpl : ∀ b ∈ extension, b ≠ 13 ∧ b ≠ 10)
    (hp : InBody closed .chunkSize remaining true data p)
    (h : extension.foldlM (step parseUri) p = .ok p') : InBody closed .chunkSize remaining true data
    p' ∨ InBody closed .chunkSizeExtension remaining true data p' := by
  rcases hsm with rfl | ⟨text, rfl⟩
  · cases h
    exact .inl hp
  obtain ⟨p1, h1, h⟩ := foldlM_cons_eq_ok h
  have hp1 : InBody closed .chunkSizeExtension remaining true data p1 := by
    obtain ⟨next, h1⟩ := hp.read trivial hr (by decide) h1
    rw [readByte, hp.state_eq] at h1
    cases h1
    exact hp.withState _
  refine .inr (foldlM_keeps (fun hb hq hst => ?_) hp1 h)
  have hb : _ ≠ CR ∧ _ ≠ LF := hpl _ (.tail _ hb)
  obtain ⟨next, hst⟩ := hq.read trivial hr hb.2 hst
  rw [readByte, hq.state_eq] at hst
  dsimp only [readChunkSizeExtension, lineEnd] at hst
  rw [if_neg hb.1, if_neg hb.2] at hst
  cases hst
  exact hq

theorem foldlM_sizeEnd (hr : 0 ≤ remaining)
    (hp : InBody closed .chunkSize remaining true data p ∨
      InBody closed .chunkSizeExtension remaining true data p)
    (h : [13, 10].foldlM (step parseUri) p = .ok p') :
    InBody closed (if remaining > 0 then .body else .chunkedBodyDoneCr) remaining true data p' := by
  obtain ⟨p1, h1, h⟩ := foldlM_cons_eq_ok h
  obtain ⟨p2, h2, h⟩ := foldlM_cons_eq_ok h
  cases h
  have hp1 : InBody closed .chunkSizeEnding remaining true data p1 := by
    rcases hp with hp | hp
    all_goals
      obtain ⟨next, h1⟩ := hp.read trivial hr (by decide) h1
      rw [readByte, hp.state_eq] at h1
      cases h1
      exact hp.withState _
  obtain ⟨next, h2⟩ := step_ending (by rw [hp1.state_eq]; trivial) h2
  rw [readByte, hp1.state_eq] at h2
  cases h2
  rw [hp1.remaining_eq]
  exact hp1.withState _

theorem foldlM_chunkSize {size : ChunkSize} (hp : InBody closed .chunkSize 0 true data p)
    (h : size.bytes.foldlM (step parseUri) p = .ok p') :
    InBody closed (if (size.value : Int) > 0 then .body else .chunkedBodyDoneCr) size.value true
      data p' := by
  rw [ChunkSize.bytes, append_assoc] at h
  obtain ⟨p1, h1, h⟩ := foldlM_append_eq_ok h
  obtain ⟨p2, h2, h⟩ := foldlM_append_eq_ok h
  have hp1 := foldlM_digits size.digits_hex (by exact hp) h1
  exact foldlM_sizeEnd (Int.natCast_nonneg _)
    (foldlM_extension (Int.natCast_nonneg _) size.extension_semicolon size.extension_plain hp1 h2) h

theorem foldlM_data (hne : bl ≠ []) (hp : InBody closed .body bl.length chunked data p)
    (h : bl.foldlM (step parseUri) p = .ok p') : if chunked then InBody closed .chunkSizeStartingCr
    0 true (data ++ bl) p' else Ended closed (data ++ bl) p' := by
  rw [foldlM_step_block parseUri hp.state_eq hne (.inr (Int.le_of_eq hp.remaining_eq.symm))] at h
  cases h
  obtain ⟨m, hm, hd⟩ := hp.incoming_eq
  have hz : (p.receive bl).remainingContent = 0 := by
    simp only [receive]
    rw [if_pos (by rw [hp.remaining_eq]; omega), hp.remaining_eq]
    omega
  have hi : (p.receive bl).incoming = some { m with data := data ++ bl } := by
    simp [receive, hm, hd]
  have hc : (p.receive bl).chunked = chunked := hp.chunked_eq
  rw [readBody, if_pos hz, hc]
  cases chunked with
  | true => exact ⟨hp.1, rfl, hz, hp.4, hp.5, _, hi, rfl⟩
  | false =>
    have he := ended_reset (p := p.receive bl) hp.1
      (by rw [show (p.receive bl).state = _ from hp.state_eq]; simp) hi hp.5
    exact he

theorem foldlM_chunk {c : Chunk} (hp : InBody closed .chunkSize 0 true data p)
    (h : c.bytes.foldlM (step parseUri) p = .ok p') :
    InBody closed .chunkSize 0 true (data ++ c.data) p' := by
  rw [Chunk.bytes, append_assoc] at h
  obtain ⟨p1, h1, h⟩ := foldlM_append_eq_ok h
  obtain ⟨p2, h2, h⟩ := foldlM_append_eq_ok h
  obtain ⟨p3, h3, h⟩ := foldlM_cons_eq_ok h
  obtain ⟨p4, h4, h⟩ := foldlM_cons_eq_ok h
  cases h
  have hps : 0 < c.data.length := length_pos_iff.mpr c.data_ne_nil
  have hp1 := foldlM_chunkSize hp h1
  rw [c.size_eq, if_pos (by omega)] at hp1
  have hp2 := foldlM_data c.data_ne_nil hp1 h2
  rw [if_pos rfl] at hp2
  have hp3 : InBody closed .chunkSizeStarting 0 true (data ++ c.data) p3 := by
    obtain ⟨next, h3⟩ := hp2.read trivial (Int.le_refl 0) (by decide) h3
    rw [readByte, hp2.state_eq] at h3
    cases h3
    exact hp2.withState _
  obtain ⟨next, h4⟩ := step_ending (by rw [hp3.state_eq]; trivial) h4
  rw [readByte, hp3.state_eq] at h4
  cases h4
  exact hp3.withState _

theorem foldlM_chunks {cs : List Chunk} (hp : InBody closed .chunkSize 0 true data p)
    (h : (cs.flatMap Chunk.bytes).foldlM (step parseUri) p = .ok p') :
    InBody closed .chunkSize 0 true (data ++ cs.flatMap Chunk.data) p' := by
  induction cs generalizing p data with
  | nil =>
    cases h
    rwa [flatMap_nil, List.append_nil]
  | cons c cs ih =>
    rw [flatMap_cons] at h ⊢
    obtain ⟨p1, h1, h⟩ := foldlM_append_eq_ok h
    rw [← append_assoc]
    exact ih (foldlM_chunk hp h1) h

/-- The end of a chunked body. Trailer fields are an error. -/
theorem foldlM_trailer {trailer : List Field} (hp : InBody closed .chunkedBodyDoneCr 0 true data p)
    (h : (trailer.flatMap Field.bytes ++ [13, 10]).foldlM (step parseUri) p = .ok p') :
    Ended closed data p' := by
  cases trailer with
  | cons f trailer =>
    obtain ⟨b, name, hn⟩ := exists_cons_of_ne_nil f.name_ne_nil
    have ht := f.name_token b (by rw [hn]; exact .head _)
    obtain ⟨hlf, -, hcr, -⟩ := isTokenChar_plain b ht
    rw [flatMap_cons, Field.bytes, hn] at h
    obtain ⟨p1, h1, -⟩ := foldlM_cons_eq_ok h
    obtain ⟨next, h1⟩ := hp.read trivial (Int.le_refl 0) hlf h1
    rw [readByte, hp.state_eq] at h1
    dsimp only [readChunkedBodyDoneCr] at h1
    rw [if_neg hlf] at h1
    obtain ⟨u, hu, -⟩ := bind_eq_ok h1
    exact absurd (expect_eq_ok hu) hcr
  | nil =>
    obtain ⟨p1, h1, h⟩ := foldlM_cons_eq_ok h
    obtain ⟨p2, h2, h⟩ := foldlM_cons_eq_ok h
    cases h
    have hp1 : p1 = p := by
      obtain ⟨next, h1⟩ := hp.read trivial (Int.le_refl 0) (by decide) h1
      rw [readByte, hp.state_eq] at h1
      cases h1
      rfl
    rw [hp1, step_eq_settle (by rw [hp.state_eq]; simp) (by rw [hp.state_eq]; simp), settle,
      readByte, hp.state_eq] at h2
    obtain ⟨m, hm, hd⟩ := hp.incoming_eq
    have he := ended_reset (p := p.withState .chunkedBodyDone) hp.1 (by rintro ⟨⟩) hm hp.5
    cases h2
    rw [hd] at he
    exact he

end

/-- **A body of the framing** is read up to its end, or not at all. -/
theorem foldlM_body {fr : Framing} (hp : Begins closed p fr) (hbd : fr.Delimits body pl)
    (h : body.foldlM (step parseUri) p = .ok p') : Ended closed pl p' := by
  cases hbd with
  | chunked c =>
    rw [ChunkedBody.bytes, append_assoc, append_assoc] at h
    obtain ⟨p1, h1, h⟩ := foldlM_append_eq_ok h
    obtain ⟨p2, h2, h⟩ := foldlM_append_eq_ok h
    have hp2 := foldlM_chunkSize (foldlM_chunks hp h1) h2
    rw [c.last_eq] at hp2
    exact foldlM_trailer hp2 h
  | length =>
    cases body with
    | nil =>
      cases h
      exact hp
    | cons b body =>
      have he := foldlM_data (cons_ne_nil b body) hp h
      exact he

/-! ## The protocol's framing -/

/-- **The heads after which the parser delimits the body as it must**. An upgrade must come without
a body. Otherwise the parser has to see that the body is chunked, that is, one `Transfer-Encoding`
says just that; or the body is not chunked, and the `Content-Length` is not after a
`Transfer-Encoding`, where it would be overlooked. -/
def Delimited (fs : List Field) : Prop :=
  if fs.any asksUpgrade then HttpMessage.framing fs = some (.length 0)
  else if fs.any saysChunked then finallyChunked fs
  else ¬ finallyChunked fs ∧
    (lateLengths fs = [] ∨
      earlyLengths fs = [] ∧ ∃ f, lateLengths fs = [f] ∧ decimal f.value = some 0)

theorem lengthFraming_ne_chunked (lens : List Field) : lengthFraming lens ≠ some .chunked := by
  match lens with
  | [] => nofun
  | [f] =>
    rw [lengthFraming]
    cases decimal f.value <;> nofun
  | _ :: _ :: _ => nofun

theorem parsedFraming_eq_iff
    (hl : fs.any saysChunked = true ∨ ∃ n, LengthOf (earlyLengths fs) n) :
    some (parsedFraming fs) = HttpMessage.framing fs ↔ Delimited fs := by
  rw [Delimited, parsedFraming]
  by_cases hu : fs.any asksUpgrade = true
  · rw [if_pos hu, if_pos hu, eq_comm]
  rw [if_neg hu, if_neg hu]
  by_cases hsy : fs.any saysChunked = true
  · rw [if_pos hsy, if_pos hsy, HttpMessage.framing]
    by_cases hfn : finallyChunked fs
    · rw [if_pos hfn]
      exact iff_of_true rfl hfn
    · rw [if_neg hfn]
      exact iff_of_false (lengthFraming_ne_chunked _).symm hfn
  rw [if_neg hsy, if_neg hsy, HttpMessage.framing]
  by_cases hfn : finallyChunked fs
  · rw [if_pos hfn]
    exact iff_of_false nofun fun h => h.1 hfn
  rw [if_neg hfn, and_iff_right hfn, ← earlyLengths_append_lateLengths]
  obtain ⟨n, hn⟩ := hl.resolve_left hsy
  have he := hn.lengthFraming_eq.1
  rw [← he]
  match earlyLengths fs, lateLengths fs, hn with
  | early, [], _ =>
    rw [List.append_nil]
    exact iff_of_true rfl (.inl rfl)
  | [], [f], _ =>
    rw [nil_append, lengthFraming, lengthFraming]
    cases hf : decimal f.value with
    | none => simp [hf]
    | some k => simp [hf, eq_comm]
  | [], f :: g :: late, _ => exact iff_of_false nofun (by simp)
  | [f], g :: late, ⟨k, hk, _⟩ =>
    rw [lengthFraming, hk]
    exact iff_of_false nofun (by simp)

/-- **The bodies of requests**. When the parser has accepted a head, it delimits the body as the
protocol does exactly if the head is in `Delimited`. If it is, then a body that the protocol
delimits, in whatever buffers it comes, is an error or is read up to its end: the message is
complete with its payload, and the next byte is the first one of the next request. -/
theorem onDataAll_delimits (hp : Idle closed p) (head : RequestHead)
    {buffers : List (List UInt8)} (hbytes : buffers.flatten = head.bytes)
    (hrun : onDataAll parseUri p buffers = .ok p') :
    (framing p' = HttpMessage.framing head.fields ↔ Delimited head.fields) ∧
      (Delimited head.fields → ∀ {fr : Framing} {body payload : List UInt8},
        HttpMessage.framing head.fields = some fr → fr.Delimits body payload →
        ∀ {buffers' : List (List UInt8)} {p'' : HttpParser Uri}, buffers'.flatten = body →
        onDataAll parseUri p' buffers' = .ok p'' → Ended closed payload p'') := by
  rw [onDataAll_eq hp.sound, hbytes] at hrun
  obtain ⟨hb, hl⟩ := foldlM_head hp hrun
  have hi := parsedFraming_eq_iff hl
  rw [hb.framing_eq]
  refine ⟨hi, ?_⟩
  intro hd fr body payload hfr hbd buffers' p'' hbytes' hrun'
  rw [onDataAll_eq (foldlM_step_sound hp.sound hrun), hbytes'] at hrun'
  rw [some.inj ((hi.mpr hd).trans hfr)] at hb
  exact foldlM_body hb hbd hrun'

/-! ## Two heads -/

def postLine : RequestLine where
  method := ascii "POST"
  target := ascii "/"
  version := ascii "HTTP/1.1"
  crlf := true
  method_token := by decide +kernel
  target_plain := by decide +kernel
  version_plain := by decide +kernel

def contentLengthField : Field where
  name := ascii "Content-Length"
  first := ⟨ascii " 4", true, by decide +kernel⟩
  folds := []
  name_ne_nil := by decide +kernel
  name_token := by decide +kernel
  folds_blank := nofun

/-- A `Transfer-Encoding` on one line. -/
def transferEncodingField (text : List UInt8) (plain : ∀ b ∈ text, b ≠ 13 ∧ b ≠ 10) : Field where
  name := ascii "Transfer-Encoding"
  first := ⟨text, true, plain⟩
  folds := []
  name_ne_nil := by decide +kernel
  name_token := by decide +kernel
  folds_blank := nofun

def chunkedHead : RequestHead where
  requestLine := postLine
  fields := [contentLengthField, transferEncodingField (ascii " Chunked") (by decide +kernel)]
  crlf := true

theorem onDataAll_delimits_chunked : ∃ p' : HttpParser Unit,
    onDataAll (fun _ => some ()) ofRequests [chunkedHead.bytes] = .ok p' ∧
      framing p' = some .chunked := by
  have hok : (onDataAll (fun _ => some ()) (ofRequests : HttpParser Unit)
      [chunkedHead.bytes]).toBool = true := by decide +kernel
  cases hr : onDataAll (fun _ => some ()) (ofRequests : HttpParser Unit) [chunkedHead.bytes] with
  | error e =>
    rw [hr] at hok
    cases hok
  | ok p' =>
    refine ⟨p', rfl, ?_⟩
    have hd := onDataAll_delimits idle_ofRequests chunkedHead (List.append_nil _) hr
    have hdl : Delimited chunkedHead.fields := by
      rw [Delimited, if_neg (by decide +kernel), if_pos (by decide +kernel)]
      decide +kernel
    rw [hd.1.mpr hdl]
    decide +kernel

/-- Another coding comes before the chunked one. -/
def smugglingHead : RequestHead where
  requestLine := postLine
  fields :=
    [contentLengthField, transferEncodingField (ascii " gzip, chunked") (by decide +kernel)]
  crlf := true

/-- One chunk, in which there is the beginning of a request. -/
def smugglingBody : ChunkedBody where
  chunks :=
    [{ size := ⟨ascii "10", [], by decide +kernel, by decide +kernel, .inl rfl, nofun⟩
       data := ascii "GET / HTTP/1.1\r\n"
       data_ne_nil := by decide +kernel
       size_eq := by decide +kernel }]
  last := ⟨ascii "0", [], by decide +kernel, by decide +kernel, .inl rfl, nofun⟩
  last_eq := by decide +kernel
  trailer := []

/-- **A request in the body of another one**. The body is chunked, and the parser takes the first
four bytes for the body and the next ones for another request. -/
theorem onDataAll_smuggled :
    HttpMessage.framing smugglingHead.fields = some .chunked ∧
      Framing.Delimits .chunked smugglingBody.bytes smugglingBody.payload ∧
      ((onDataAll (fun _ => some ()) (ofRequests : HttpParser Unit)
          [smugglingHead.bytes ++ smugglingBody.bytes.take 22]).toOption.map fun p =>
        (p.state, p.closed.map fun m => (m.method, m.data))) =
      some (.start, [(ascii "POST", ascii "10\r\n"), (ascii "GET", [])]) :=
  ⟨by decide +kernel, .chunked smugglingBody, by decide +kernel⟩

end Http.HttpParser
