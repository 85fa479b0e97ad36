import DartSdk.Http.Proof.HttpParserBytes
import DartSdk.Lib.Bits

/-!
# The HTTP parser on a request head

What the parser knows when it has read the request line (`foldlM_requestLine`), a header field
(`foldlM_field`), and the empty line at the end.
-/

namespace Http.HttpParser

open CharCode Fallible HttpMessage List

variable {Uri : Type} {parseUri : List UInt8 → Option Uri} {p p' q : HttpParser Uri} {byte : UInt8}
  {closed : List (HttpIncoming Uri)} {crlf : Bool} {state : State} {fl vl : List UInt8}

/-! ## Steps in a head -/

theorem step_eq_settle (hu : p.state ≠ .upgraded) (hb : p.state ≠ .body) :
    p.step parseUri byte = p.settle parseUri byte := by
  rw [step, if_neg hu, if_neg hb]

theorem settle_eq_ok (ha : ∀ q, p.readByte parseUri byte ≠ .ok (q, .again))
    (h : p.settle parseUri byte = .ok p') : ∃ next, p.readByte parseUri byte = .ok (p', next) := by
  rw [settle] at h
  split at h
  · cases h
  next q hr => exact absurd hr (ha q)
  next q next hne hr =>
    cases h
    exact ⟨next, hr⟩

/-- Every byte but LF is read once. -/
theorem step_eq_ok (hp : Sound p) (hu : p.state ≠ .upgraded) (hb : p.state ≠ .body)
    (hlf : byte ≠ LF) (h : p.step parseUri byte = .ok p') :
    ∃ next, p.readByte parseUri byte = .ok (p', next) := by
  rw [step_eq_settle hu hb] at h
  exact settle_eq_ok (fun q hr => hlf ((readByte_goes hp hb hr).2 rfl).1) h

theorem step_ending (hs : IsEnding p.state) (h : p.step parseUri byte = .ok p') :
    ∃ next, p.readByte parseUri byte = .ok (p', next) := by
  obtain ⟨hb, hu, -⟩ := isEnding_ne hs
  rw [step_eq_settle hu hb] at h
  exact settle_eq_ok (fun q hr => readByte_ending hs hr rfl) h

/-! ## The request line -/

/-- Nothing is known of the headers yet. -/
structure Blank (closed : List (HttpIncoming Uri)) (p : HttpParser Uri) : Prop where
  requestParser : p.requestParser = true
  headerField : p.headerField = []
  headerValue : p.headerValue = []
  connectionUpgrade : p.connectionUpgrade = false
  chunked : p.chunked = false
  remainingContent : p.remainingContent = -1
  contentLength : p.contentLength = false
  transferEncoding : p.transferEncoding = false
  incoming : p.incoming = none
  closed_eq : p.closed = closed

/-- Between two messages. -/
structure Idle (closed : List (HttpIncoming Uri)) (p : HttpParser Uri) : Prop where
  state : p.state = .start
  blank : Blank closed p

theorem Idle.sound (hp : Idle closed p) : Sound p := by
  rw [Sound, hp.state]
  exact hp.blank.remainingContent

theorem idle_ofRequests : Idle [] (ofRequests : HttpParser Uri) :=
  ⟨rfl, rfl, rfl, rfl, rfl, rfl, rfl, rfl, rfl, rfl, rfl⟩

/-- The other fields do not matter. -/
theorem Blank.update (hp : Blank closed p) (state : State) (index type size : Nat)
    (method uri : List UInt8) (ver : HttpVersion) (persistent : Bool) :
    Blank closed { p with
      state, httpVersionIndex := index, messageType := type, headersReceivedSize := size, method
      uriOrReasonPhrase := uri, httpVersion := ver, persistentConnection := persistent } :=
  ⟨hp.1, hp.2, hp.3, hp.4, hp.5, hp.6, hp.7, hp.8, hp.9, hp.10⟩

theorem Blank.push {list : Collected} (hp : Blank closed p)
    (hl : list = .method ∨ list = .uriOrReasonPhrase)
    (h : p.addWithValidation list byte = .ok p') : Blank closed p' := by
  rw [addWithValidation_eq_ok h]
  rcases hl with rfl | rfl <;> exact hp.update ..

theorem Blank.pushAll {bs : List UInt8} (hp : Blank closed p)
    (h : p.addAllWithValidation .method bs = .ok p') : Blank closed p' :=
  foldlM_keeps (fun _ hq ha => hq.push (.inl rfl) ha) hp h

/-- The parser is in one of the states, which are states of the request line. -/
structure InLine (closed : List (HttpIncoming Uri)) (states : List State) (p : HttpParser Uri) :
    Prop where
  state : p.state ∈ states
  blank : Blank closed p

def methodStates : List State := [.start, .methodOrResponseHttpVersion, .requestLineMethod]

theorem InLine.read {states : List State} (hp : InLine closed states p)
    (hst : ∀ s ∈ states, RemainingOk s (-1) ∧ s ≠ .upgraded ∧ s ≠ .body) (hlf : byte ≠ LF)
    (h : p.step parseUri byte = .ok p') : ∃ next, p.readByte parseUri byte = .ok (p', next) := by
  obtain ⟨hr, hu, hb⟩ := hst _ hp.state
  rw [← hp.blank.remainingContent] at hr
  exact step_eq_ok hr hu hb hlf h

section
variable (hp : InLine closed methodStates p)
include hp

theorem step_method (hlf : byte ≠ LF) (hsp : byte ≠ SP)
    (h : p.step parseUri byte = .ok p') : InLine closed methodStates p' := by
  obtain ⟨next, h⟩ := hp.read (by simp [methodStates, RemainingOk]) hlf h
  have hs := hp.state
  have hb := hp.blank
  simp only [methodStates, mem_cons, not_mem_nil, or_false] at hs
  unfold readByte at h
  rcases hs with hs | hs | hs <;> rw [hs] at h
  · dsimp only [readStart] at h
    split_ifs at h
    · cases h
      exact ⟨by simp [methodStates], hb.update ..⟩
    obtain ⟨q, hq, h⟩ := bind_eq_ok h
    split_ifs at h
    cases h
    exact ⟨by simp [methodStates, withState], (hb.push (.inl rfl) hq).update ..⟩
  · dsimp only [readMethodOrResponseHttpVersion] at h
    split_ifs at h
    · cases h
      exact ⟨by simp [methodStates, hs], hb.update ..⟩
    · exact absurd hb.requestParser ‹_›
    obtain ⟨q, hq, h⟩ := bind_eq_ok h
    obtain ⟨q', hq', h⟩ := bind_eq_ok h
    split_ifs at h
    cases h
    exact ⟨by simp [methodStates], ((hb.pushAll hq).push (.inl rfl) hq').update ..⟩
  · dsimp only [readRequestLineMethod] at h
    rw [if_neg hsp] at h
    split_ifs at h
    obtain ⟨q, hq, h⟩ := map_eq_ok h
    cases h
    refine ⟨?_, hb.push (.inl rfl) hq⟩
    rw [(addWithValidation_sound hq).1, hs]
    simp [methodStates]

theorem step_method_sp (h : p.step parseUri SP = .ok p') : InLine closed [.requestLineUri] p' := by
  obtain ⟨next, h⟩ := hp.read (by simp [methodStates, RemainingOk]) (by decide) h
  have hs := hp.state
  have hb := hp.blank
  simp only [methodStates, mem_cons, not_mem_nil, or_false] at hs
  unfold readByte at h
  rcases hs with hs | hs | hs <;> rw [hs] at h
  · dsimp only [readStart] at h
    rw [if_neg (by decide), if_pos (by decide)] at h
    cases h
  · dsimp only [readMethodOrResponseHttpVersion] at h
    have hsp : Const.HTTP[p.httpVersionIndex]? ≠ some SP := by
      intro heq
      exact absurd (mem_of_getElem? heq) (by decide)
    rw [if_neg (fun hc => hsp hc.2), if_neg (fun hc => absurd hc.2 (by decide))] at h
    obtain ⟨q, hq, h⟩ := bind_eq_ok h
    rw [if_pos rfl] at h
    cases h
    exact ⟨mem_singleton_self _, (hb.pushAll hq).update ..⟩
  · dsimp only [readRequestLineMethod] at h
    rw [if_pos rfl] at h
    cases h
    exact ⟨mem_singleton_self _, hb.update ..⟩

end

theorem InLine.state_eq {state : State} (hp : InLine closed [state] p) : p.state = state :=
  mem_singleton.mp hp.state

theorem step_target (hp : InLine closed [.requestLineUri] p) (hlf : byte ≠ LF) (hsp : byte ≠ SP)
    (h : p.step parseUri byte = .ok p') : InLine closed [.requestLineUri] p' := by
  have hs := hp.state_eq
  have hb := hp.blank
  obtain ⟨next, h⟩ := hp.read (by simp [RemainingOk]) hlf h
  rw [readByte, hs] at h
  dsimp only [readRequestLineUri] at h
  rw [if_neg hsp] at h
  split_ifs at h
  obtain ⟨q, hq, h⟩ := map_eq_ok h
  cases h
  refine ⟨?_, hb.push (.inr rfl) hq⟩
  rw [(addWithValidation_sound hq).1, hs]
  exact mem_singleton_self _

theorem step_target_sp (hp : InLine closed [.requestLineUri] p) (h : p.step parseUri SP = .ok p') :
    InLine closed [.requestLineHttpVersion] p' := by
  have hs := hp.state_eq
  have hb := hp.blank
  obtain ⟨next, h⟩ := hp.read (by simp [RemainingOk]) (by decide) h
  rw [readByte, hs] at h
  dsimp only [readRequestLineUri] at h
  rw [if_pos rfl] at h
  split_ifs at h
  cases h
  exact ⟨mem_singleton_self _, hb.update ..⟩

/-- A byte of the version, and what the byte after the version does. -/
theorem readRequestLineHttpVersion_eq_ok {r : Progress Uri} (hb : Blank closed p)
    (hs : p.state = .requestLineHttpVersion) (h : p.readRequestLineHttpVersion byte = .ok r) :
    (InLine closed [.requestLineHttpVersion] r.1 ∧ byte ≠ LF ∧ byte ≠ CR) ∨
      r = (p.withState .requestLineEnding, if byte = CR then .proceed else .again) ∧
        (byte = CR ∨ byte = LF) := by
  have hk {index : Nat} {version : HttpVersion} {persistent : Bool} :
      InLine closed [.requestLineHttpVersion]
        { p with httpVersion := version, persistentConnection := persistent,
                 httpVersionIndex := index } :=
    ⟨by rw [show HttpParser.state _ = _ from hs]; exact mem_singleton_self _, hb.update ..⟩
  unfold readRequestLineHttpVersion at h
  split_ifs at h with hi hd ho hz
  · obtain ⟨u, hu, h⟩ := bind_eq_ok h
    cases h
    unfold expectVersionByte at hu
    split at hu
    next expected he =>
      obtain rfl := expect_eq_ok hu
      have hm := mem_of_getElem? he
      refine .inl ⟨hk, ?_, ?_⟩ <;> (rintro rfl; exact absurd hm (by decide))
    · cases hu
  · cases h
    exact .inl ⟨hk, by rw [ho]; decide, by rw [ho]; decide⟩
  · cases h
    exact .inl ⟨hk, by rw [hz]; decide, by rw [hz]; decide⟩
  unfold lineEnd at h
  split_ifs at h with hcr hlf
  · cases h
    exact .inr ⟨by rw [if_pos hcr], .inl hcr⟩
  · cases h
    exact .inr ⟨by rw [if_neg hcr], .inr hlf⟩
  · cases h
    exact .inl ⟨hk, hlf, hcr⟩

theorem step_version (hp : InLine closed [.requestLineHttpVersion] p)
    (hplain : byte ≠ CR ∧ byte ≠ LF) (h : p.step parseUri byte = .ok p') :
    InLine closed [.requestLineHttpVersion] p' := by
  have hs := hp.state_eq
  have hb := hp.blank
  obtain ⟨next, h⟩ := hp.read (by simp [RemainingOk]) hplain.2 h
  rw [readByte, hs] at h
  rcases readRequestLineHttpVersion_eq_ok hb hs h with hin | ⟨-, he⟩
  · exact hin.1
  · exact (he.elim hplain.1 hplain.2).elim

/-- At the first header line. -/
structure AtHeaders (closed : List (HttpIncoming Uri)) (p : HttpParser Uri) : Prop where
  state : p.state = .headerStart
  messageType : p.messageType = MessageType.REQUEST
  blank : Blank closed p

theorem readRequestLineEnding_eq_ok {next : Next} (hb : Blank closed p)
    (h : p.readRequestLineEnding byte = .ok (p', next)) : AtHeaders closed p' := by
  obtain ⟨-, -, h⟩ := bind_eq_ok h
  cases h
  exact ⟨rfl, rfl, hb.update ..⟩

/-- The end of the request line. -/
theorem foldlM_version_eol (hp : InLine closed [.requestLineHttpVersion] p)
    (h : (eol crlf).foldlM (step parseUri) p = .ok p') : AtHeaders closed p' := by
  have hs := hp.state_eq
  have hb := hp.blank
  have hst (byte : UInt8) : p.step parseUri byte = p.settle parseUri byte :=
    step_eq_settle (by rw [hs]; nofun) (by rw [hs]; nofun)
  have hrd (byte : UInt8) : p.readByte parseUri byte = p.readRequestLineHttpVersion byte := by
    rw [readByte, hs]
  cases crlf with
  | true =>
    obtain ⟨q, hq, h⟩ := foldlM_cons_eq_ok h
    obtain ⟨q', hq', h⟩ := foldlM_cons_eq_ok h
    cases h
    obtain ⟨next, hq⟩ := hp.read (by simp [RemainingOk]) (by decide) hq
    rw [hrd] at hq
    rcases readRequestLineHttpVersion_eq_ok hb hs hq with hin | ⟨heq, -⟩
    · exact absurd rfl hin.2.2
    · obtain ⟨rfl, rfl⟩ := Prod.mk.inj heq
      obtain ⟨next, he⟩ := step_ending (by trivial) hq'
      exact readRequestLineEnding_eq_ok (hb.update ..) he
  | false =>
    obtain ⟨q, hq, h⟩ := foldlM_cons_eq_ok h
    cases h
    rw [hst, settle, hrd] at hq
    split at hq
    · cases hq
    next q hrd' =>
      obtain ⟨r, hr, rfl⟩ := map_eq_ok hq
      rcases readRequestLineHttpVersion_eq_ok hb hs hrd' with hin | ⟨heq, -⟩
      · exact absurd rfl hin.2.1
      · obtain ⟨rfl, -⟩ := Prod.mk.inj heq
        exact readRequestLineEnding_eq_ok (hb.update ..) hr
    next q next hne hrd' =>
      rcases readRequestLineHttpVersion_eq_ok hb hs hrd' with hin | ⟨heq, -⟩
      · exact absurd rfl hin.2.1
      · exact absurd (Prod.mk.inj heq).2 hne

theorem isTokenChar_plain : ∀ byte : UInt8, HttpMessage.isTokenChar byte = true →
    byte ≠ LF ∧ byte ≠ SP ∧ byte ≠ CR ∧ byte ≠ COLON ∧ isBlank byte = false := by
  decide +kernel

/-- **The request line**. -/
theorem foldlM_requestLine {l : RequestLine} (hp : Idle closed p)
    (h : l.bytes.foldlM (step parseUri) p = .ok p') : AtHeaders closed p' := by
  obtain ⟨p1, h1, h⟩ := foldlM_append_eq_ok h
  obtain ⟨p2, h2, h⟩ := foldlM_cons_eq_ok h
  obtain ⟨p3, h3, h⟩ := foldlM_append_eq_ok h
  obtain ⟨p4, h4, h⟩ := foldlM_cons_eq_ok h
  obtain ⟨p5, h5, h⟩ := foldlM_append_eq_ok h
  have hin : InLine closed methodStates p := ⟨by rw [hp.state]; simp [methodStates], hp.blank⟩
  have hin1 : InLine closed methodStates p1 := foldlM_keeps (fun hb hq hst =>
    have hplain := isTokenChar_plain _ (l.method_token _ hb)
    step_method hq hplain.1 hplain.2.1 hst) hin h1
  have hin2 := step_method_sp hin1 h2
  have hin3 : InLine closed [.requestLineUri] p3 := foldlM_keeps (fun hb hq hst =>
    have hplain := l.target_plain _ hb
    step_target hq hplain.2.2 hplain.1 hst) hin2 h3
  have hin4 := step_target_sp hin3 h4
  have hin5 : InLine closed [.requestLineHttpVersion] p5 := foldlM_keeps (fun hb hq hst =>
    step_version hq (l.version_plain _ hb) hst) hin4 h5
  exact foldlM_version_eol hin5 h

/-! ## A header field -/

/-- The parser in a header field of which it has the name and the value so far. -/
def inField (q : HttpParser Uri) (state : State) (size : Nat) (fl vl : List UInt8) :
    HttpParser Uri :=
  { q with state, headersReceivedSize := size, headerField := fl, headerValue := vl }

/-- The parser has collected the name and the value, and has not done anything else. -/
def Collects (q : HttpParser Uri) (state : State) (fl vl : List UInt8) (p : HttpParser Uri) :
    Prop :=
  ∃ size, p = q.inField state size fl vl

/-- The states within a header line. -/
def IsHeaderState : State → Prop
  | .headerField | .headerValueStart | .headerValue | .headerValueFoldOrEndCr
  | .headerValueFoldOrEnd => True
  | _ => False

theorem Collects.read (hp : Collects q state fl vl p) (hq : q.remainingContent = -1)
    (hs : IsHeaderState state) (hlf : byte ≠ LF) (h : p.step parseUri byte = .ok p') :
    ∃ next, p.readByte parseUri byte = .ok (p', next) := by
  obtain ⟨size, rfl⟩ := hp
  have hne : state ≠ .upgraded ∧ state ≠ .body := by
    constructor <;> rintro rfl <;> exact hs
  refine step_eq_ok ?_ hne.1 hne.2 hlf h
  cases state <;> first | exact hq | exact hs.elim

section
variable (hq : q.remainingContent = -1)
include hq

/-- A byte of the name after the first one. -/
theorem step_name (hp : Collects q .headerField fl vl p)
    (hb : byte ≠ LF ∧ byte ≠ COLON) (h : p.step parseUri byte = .ok p') :
    Collects q .headerField (fl ++ [toLowerCaseByte byte]) vl p' := by
  obtain ⟨next, h⟩ := hp.read hq trivial hb.1 h
  obtain ⟨size, rfl⟩ := hp
  dsimp only [readByte, inField, readHeaderField] at h
  rw [if_neg hb.2] at h
  split_ifs at h
  obtain ⟨p1, h1, h⟩ := map_eq_ok h
  cases h
  exact ⟨_, addWithValidation_eq_ok h1⟩

theorem step_colon (hp : Collects q .headerField fl vl p)
    (h : p.step parseUri COLON = .ok p') : Collects q .headerValueStart fl vl p' := by
  obtain ⟨next, h⟩ := hp.read hq trivial (by decide) h
  obtain ⟨size, rfl⟩ := hp
  dsimp only [readByte, inField, readHeaderField] at h
  rw [if_pos rfl] at h
  cases h
  exact ⟨_, rfl⟩

theorem step_value_blank
    (hp : Collects q .headerValueStart fl vl p) (hby : isBlank byte = true)
    (h : p.step parseUri byte = .ok p') : Collects q .headerValueStart fl vl p' := by
  have hb : byte = SP ∨ byte = HT := of_decide_eq_true hby
  obtain ⟨next, h⟩ := hp.read hq trivial (by rcases hb with rfl | rfl <;> decide) h
  obtain ⟨size, rfl⟩ := hp
  dsimp only [readByte, inField, readHeaderValueStart] at h
  rw [if_neg (by rcases hb with rfl | rfl <;> decide),
    if_neg (by rcases hb with rfl | rfl <;> decide), if_neg (by tauto)] at h
  cases h
  exact ⟨_, rfl⟩

/-- The first byte of a line of the value, or a later one. -/
theorem step_value (hp : Collects q .headerValueStart fl vl p ∧ isBlank byte = false ∨
      Collects q .headerValue fl vl p) (hb : byte ≠ CR ∧ byte ≠ LF)
    (h : p.step parseUri byte = .ok p') : Collects q .headerValue fl (vl ++ [byte]) p' := by
  rcases hp with ⟨hp, hbl⟩ | hp
  · have hbl : ¬ (byte = SP ∨ byte = HT) := of_decide_eq_false hbl
    obtain ⟨next, h⟩ := hp.read hq trivial hb.2 h
    obtain ⟨size, rfl⟩ := hp
    dsimp only [readByte, inField, readHeaderValueStart] at h
    rw [if_neg hb.1, if_neg hb.2, if_pos (not_or.mp hbl)] at h
    obtain ⟨p1, h1, h⟩ := map_eq_ok h
    cases h
    rw [addWithValidation_eq_ok h1]
    exact ⟨_, rfl⟩
  · obtain ⟨next, h⟩ := hp.read hq trivial hb.2 h
    obtain ⟨size, rfl⟩ := hp
    dsimp only [readByte, inField, readHeaderValue] at h
    rw [if_neg hb.1, if_neg hb.2] at h
    obtain ⟨p1, h1, h⟩ := map_eq_ok h
    cases h
    rw [addWithValidation_eq_ok h1]
    exact ⟨_, rfl⟩

end

theorem foldlM_value_eol
    (hp : Collects q .headerValueStart fl vl p ∨ Collects q .headerValue fl vl p)
    (h : (eol crlf).foldlM (step parseUri) p = .ok p') :
    Collects q .headerValueFoldOrEnd fl vl p' := by
  have hlf : ∀ {p p' : HttpParser Uri}, (Collects q .headerValueStart fl vl p ∨
      Collects q .headerValue fl vl p ∨ Collects q .headerValueFoldOrEndCr fl vl p) →
      p.step parseUri LF = .ok p' → Collects q .headerValueFoldOrEnd fl vl p' := by
    intro p p' hp h
    rcases hp with ⟨size, rfl⟩ | ⟨size, rfl⟩ | ⟨size, rfl⟩ <;> (cases h; exact ⟨_, rfl⟩)
  cases crlf with
  | true =>
    obtain ⟨p1, h1, h⟩ := foldlM_cons_eq_ok h
    obtain ⟨p2, h2, h⟩ := foldlM_cons_eq_ok h
    cases h
    refine hlf (.inr (.inr ?_)) h2
    rcases hp with ⟨size, rfl⟩ | ⟨size, rfl⟩ <;> (cases h1; exact ⟨_, rfl⟩)
  | false =>
    obtain ⟨p1, h1, h⟩ := foldlM_cons_eq_ok h
    cases h
    exact hlf (hp.imp_right .inl) h1

section
variable (hq : q.remainingContent = -1)
include hq

variable {text : List UInt8}

section
variable (hplain : ∀ b ∈ text, b ≠ 13 ∧ b ≠ 10)
include hplain

/-- A line of the value after the blanks before it. -/
theorem foldlM_value_rest (hp : Collects q .headerValue fl vl p)
    (h : text.foldlM (step parseUri) p = .ok p') : Collects q .headerValue fl (vl ++ text) p' := by
  induction text generalizing p vl with
  | nil =>
    cases h
    rwa [List.append_nil]
  | cons b text ih =>
    obtain ⟨p1, h1, h⟩ := foldlM_cons_eq_ok h
    have hp1 := step_value hq (.inr hp) (hplain b mem_cons_self) h1
    have hr := ih (fun b hb => hplain b (mem_cons_of_mem _ hb)) hp1 h
    rwa [append_assoc, singleton_append] at hr

theorem foldlM_value_text (hp : Collects q .headerValueStart fl vl p)
    (h : text.foldlM (step parseUri) p = .ok p') :
    Collects q .headerValueStart fl (vl ++ skipBlank text) p' ∨
      Collects q .headerValue fl (vl ++ skipBlank text) p' := by
  induction text generalizing p with
  | nil =>
    cases h
    exact .inl (by rwa [skipBlank, dropWhile_nil, List.append_nil])
  | cons b text ih =>
    obtain ⟨p1, h1, h⟩ := foldlM_cons_eq_ok h
    have ht : ∀ b ∈ text, b ≠ 13 ∧ b ≠ 10 := fun b hb => hplain b (.tail _ hb)
    cases hb : isBlank b with
    | true =>
      rw [skipBlank, dropWhile_cons_of_pos hb]
      exact ih ht (step_value_blank hq hp hb h1) h
    | false =>
      have hp1 := step_value hq (.inl ⟨hp, hb⟩) (hplain b mem_cons_self) h1
      have hr := foldlM_value_rest hq ht hp1 h
      rw [append_assoc, singleton_append] at hr
      rw [skipBlank, dropWhile_cons_of_neg (by rw [hb]; nofun)]
      exact .inr hr

theorem foldlM_value_line (hp : Collects q .headerValueStart fl vl p)
    (h : (text ++ eol crlf).foldlM (step parseUri) p = .ok p') :
    Collects q .headerValueFoldOrEnd fl (vl ++ skipBlank text) p' := by
  obtain ⟨p1, h1, h⟩ := foldlM_append_eq_ok h
  exact foldlM_value_eol (foldlM_value_text hq hplain hp h1) h

end

/-- The blank that continues a field. -/
theorem step_fold
    (hp : Collects q .headerValueFoldOrEnd fl vl p) (hby : isBlank byte = true)
    (h : p.step parseUri byte = .ok p') : Collects q .headerValueStart fl (vl ++ [SP]) p' := by
  have hb : byte = SP ∨ byte = HT := of_decide_eq_true hby
  obtain ⟨next, h⟩ := hp.read hq trivial (by rcases hb with rfl | rfl <;> decide) h
  obtain ⟨size, rfl⟩ := hp
  dsimp only [readByte, inField, readHeaderValueFoldOrEnd] at h
  rw [if_pos hb] at h
  obtain ⟨p1, h1, h⟩ := map_eq_ok h
  cases h
  rw [addWithValidation_eq_ok h1]
  exact ⟨_, rfl⟩

theorem foldlM_folds {folds : List Line}
    (hf : ∀ l ∈ folds, ∃ b text, l.text = b :: text ∧ isBlank b = true)
    (hp : Collects q .headerValueFoldOrEnd fl vl p)
    (h : (folds.flatMap Line.bytes).foldlM (step parseUri) p = .ok p') :
    Collects q .headerValueFoldOrEnd fl
      (vl ++ folds.flatMap fun l => 32 :: skipBlank l.text) p' := by
  induction folds generalizing p vl with
  | nil =>
    cases h
    rwa [flatMap_nil, List.append_nil]
  | cons l folds ih =>
    rw [flatMap_cons] at h ⊢
    obtain ⟨p2, h2, h⟩ := foldlM_append_eq_ok h
    obtain ⟨b, text, ht, hb⟩ := hf l mem_cons_self
    have hplain := l.plain
    rw [Line.bytes, ht] at h2
    rw [ht] at hplain ⊢
    obtain ⟨p1, h1, h2⟩ := foldlM_cons_eq_ok h2
    have hp1 := step_fold hq hp hb h1
    have hp2 := foldlM_value_line hq (fun b hb => hplain b (.tail _ hb)) hp1 h2
    have hr := ih (fun l hl => hf l (.tail _ hl)) hp2 h
    have hsk : skipBlank (b :: text) = skipBlank text := dropWhile_cons_of_pos hb
    rw [append_assoc, append_assoc] at hr
    rw [hsk]
    exact hr

theorem foldlM_name {name : List UInt8} (hn : ∀ b ∈ name, HttpMessage.isTokenChar b = true)
    (hp : Collects q .headerField fl vl p)
    (h : name.foldlM (step parseUri) p = .ok p') :
    Collects q .headerField (fl ++ name.map toLowerCaseByte) vl p' := by
  induction name generalizing p fl with
  | nil =>
    cases h
    rwa [map_nil, List.append_nil]
  | cons b name ih =>
    obtain ⟨p1, h1, h⟩ := foldlM_cons_eq_ok h
    have hb := isTokenChar_plain b (hn b mem_cons_self)
    have hp1 := step_name hq hp ⟨hb.1, hb.2.2.2.1⟩ h1
    have hr := ih (fun b hb => hn b (.tail _ hb)) hp1 h
    rwa [append_assoc, singleton_append] at hr

end

/-! ## Between two fields -/

/-- The parser before a header line, and what it is when it has seen that the line does not continue
the field before. -/
def Opens (p q : HttpParser Uri) : Prop :=
  (p.state = .headerStart ∧ ∃ version, p.version = some version ∧
    q = { p with headers := some (HttpHeaders.create version) }) ∨
  (p.state = .headerValueFoldOrEnd ∧ p.fieldEnd = .ok q)

/-- Before a header line. -/
def AtLine (p : HttpParser Uri) : Prop :=
  p.state = .headerStart ∨ p.state = .headerValueFoldOrEnd

theorem readByte_atLine {r : Progress Uri} (hp : AtLine p) (hb : isBlank byte = false)
    (h : p.readByte parseUri byte = .ok r) : ∃ q, Opens p q ∧ q.headerLine byte = .ok r := by
  rcases hp with hs | hs
  · rw [readByte, hs] at h
    dsimp only [readHeaderStart] at h
    split at h
    · cases h
    next version hv => exact ⟨_, .inl ⟨hs, version, hv, rfl⟩, h⟩
  · rw [readByte, hs] at h
    dsimp only [readHeaderValueFoldOrEnd] at h
    have hne : ¬ (byte = SP ∨ byte = HT) := of_decide_eq_false hb
    rw [if_neg hne] at h
    obtain ⟨q, hq, h⟩ := bind_eq_ok h
    exact ⟨q, .inr ⟨hs, hq⟩, h⟩

/-- **A header field**. -/
theorem foldlM_field {f : Field} (hp : AtLine p) (hr : p.remainingContent = -1)
    (h : f.bytes.foldlM (step parseUri) p = .ok p') :
    ∃ q, Opens p q ∧ (q.headerField = [] → q.headerValue = [] →
      Collects q .headerValueFoldOrEnd (f.name.map toLowerCaseByte) f.unfolded p') := by
  have hs : Sound p ∧ p.state ≠ .upgraded ∧ p.state ≠ .body := by
    rcases hp with hs | hs <;> (rw [Sound, hs]; exact ⟨hr, by simp, by simp⟩)
  obtain ⟨b, name, hn⟩ := exists_cons_of_ne_nil f.name_ne_nil
  have ht := f.name_token
  rw [Field.bytes, hn] at h
  rw [hn] at ht
  obtain ⟨hlf, -, hcr, -, hbl⟩ := isTokenChar_plain b (ht b mem_cons_self)
  obtain ⟨p1, h1, h⟩ := foldlM_cons_eq_ok h
  obtain ⟨next, h1⟩ := step_eq_ok hs.1 hs.2.1 hs.2.2 hlf h1
  obtain ⟨q, ho, h1⟩ := readByte_atLine hp hbl h1
  refine ⟨q, ho, fun hfl hv => ?_⟩
  have hq : q.remainingContent = -1 := by
    rcases ho with ⟨-, version, -, rfl⟩ | ⟨-, he⟩
    · exact hr
    · exact (fieldEnd_remaining he).trans hr
  have hp1 : Collects q .headerField [toLowerCaseByte b] [] p1 := by
    rw [headerLine, lineEnd, if_neg hcr, if_neg hlf] at h1
    obtain ⟨p2, h2, h1⟩ := map_eq_ok h1
    cases h1
    refine ⟨q.headersReceivedSize + 1, ?_⟩
    rw [addWithValidation_eq_ok h2]
    simp [push, HttpParser.withState, inField, hfl, hv]
  obtain ⟨p2, h2, h⟩ := foldlM_append_eq_ok h
  obtain ⟨p3, h3, h⟩ := foldlM_cons_eq_ok h
  obtain ⟨p4, h4, h⟩ := foldlM_append_eq_ok h
  have hp2 := foldlM_name hq (fun b hb => ht b (.tail _ hb)) hp1 h2
  have hp3 := step_colon hq hp2 h3
  have hp4 := foldlM_value_line hq f.first.plain hp3 h4
  have hp5 := foldlM_folds hq f.folds_blank hp4 h
  rw [hn]
  exact hp5

end Http.HttpParser
