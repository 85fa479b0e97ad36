import DartSdk.Http.Proof.HttpParserHead

/-!
# What the HTTP parser notes of the header fields

The parser notes field by field what matters for the framing of the body (`Noted.field`), and
decides at the end of the headers:

* the last `Content-Length` before the first `Transfer-Encoding` gives the length, and a second one
  is an error;
* a `Transfer-Encoding` is taken to be chunked if its whole value is that word and begins on the
  line of the field's name;
* after `Connection: upgrade` there is no body (`fieldEnd_upgrade_iff` says for which values).
-/

namespace Http

open List Bool HttpHeaders

/-! ## The header table -/

namespace HttpHeaders

open Fallible HttpMessage

variable {h h' : HttpHeaders} {name vl : List UInt8}

theorem bind_checkMutable_eq_ok {α : Type} {k : Unit → Except HttpError α} {a : α}
    (hok : (h.checkMutable >>= k) = .ok a) : k () = .ok a := by
  obtain ⟨u, hu, hk⟩ := bind_eq_ok hok
  unfold checkMutable at hu
  split_ifs at hu
  exact hk

theorem remove_mutable (hok : h.remove name vl = .ok h') : h'.mutable = h.mutable := by
  replace hok := bind_checkMutable_eq_ok hok
  cases hok
  split_ifs <;> rfl

/-- The setters do not make the headers immutable. -/
theorem setters_mutable (dp : Nat) :
    (∀ {h h' : HttpHeaders} {n : Int}, setContentLength dp h n = .ok h' → h'.mutable = h.mutable) ∧
    (∀ {h h' : HttpHeaders} {ch : Bool}, setChunkedTransferEncoding dp h ch = .ok h' →
      h'.mutable = h.mutable) := by
  induction dp with
  | zero => exact ⟨nofun, nofun⟩
  | succ dp ih =>
    refine ⟨fun hok => ?_, fun hok => ?_⟩
    · rw [setContentLength] at hok
      replace hok := bind_checkMutable_eq_ok hok
      split_ifs at hok
      · cases hok
        rfl
      · obtain ⟨h1, hst, rfl⟩ := map_eq_ok hok
        exact (ih.2 hst :)
      · cases hok
        rfl
      · exact (ih.2 hok :)
      · cases hok
        rfl
    · rw [setChunkedTransferEncoding] at hok
      replace hok := bind_checkMutable_eq_ok hok
      split_ifs at hok
      · cases hok
        rfl
      · obtain ⟨h1, hst, rfl⟩ := map_eq_ok hok
        exact (ih.1 hst :)
      · obtain ⟨h1, hst, rfl⟩ := map_eq_ok hok
        exact (ih.1 hst :)
      · obtain ⟨h1, hr, rfl⟩ := map_eq_ok hok
        exact (remove_mutable hr :)

/-- The same framing of the body. -/
structure SameFraming (h h' : HttpHeaders) : Prop where
  contentLength : h'.contentLength = h.contentLength
  mutable : h'.mutable = h.mutable
  chunkedTransferEncoding : h'.chunkedTransferEncoding = h.chunkedTransferEncoding

theorem SameFraming.refl (h : HttpHeaders) : SameFraming h h := ⟨rfl, rfl, rfl⟩

theorem SameFraming.trans {h'' : HttpHeaders} (a : SameFraming h h') (b : SameFraming h' h'') :
    SameFraming h h'' :=
  ⟨b.1.trans a.1, b.2.trans a.2, b.3.trans a.3⟩

theorem addConnection_sameFraming (h : HttpHeaders) (name vl : List UInt8) :
    SameFraming h (h.addConnection name vl) := by
  unfold addConnection
  split_ifs <;> exact ⟨rfl, rfl, rfl⟩

theorem add_sameFraming (hl : name ≠ contentLengthHeader)
    (he : name ≠ transferEncodingHeader) (hok : h.add name vl = .ok h') : SameFraming h h' := by
  unfold add at hok
  rw [if_neg hl, if_neg he] at hok
  split_ifs at hok
  · cases hok
    exact ⟨rfl, rfl, rfl⟩
  · cases hok
    exact addConnection_sameFraming h name vl
  · cases hok
    exact ⟨rfl, rfl, rfl⟩

theorem add_contentLength (hm : h.mutable = true) (hno : h.contentLength = -1)
    (hc : h.chunkedTransferEncoding = false)
    (hok : h.add contentLengthHeader vl = .ok h') :
    digitsValidator vl = true ∧ (∃ n : Nat, decimal vl = some n ∧ h'.contentLength = n) ∧
      h'.mutable = true ∧ h'.chunkedTransferEncoding = false := by
  have ha : h.add contentLengthHeader vl = h.addContentLength vl := by
    unfold add
    rw [if_neg (by decide), if_neg (by decide), if_pos rfl]
  rw [ha, addContentLength] at hok
  split_ifs at hok with hd
  obtain ⟨n, hp, hok⟩ := bind_eq_ok hok
  refine ⟨by simpa using hd, ?_⟩
  unfold intParse at hp
  split at hp
  · cases hp
  next k hk =>
    split_ifs at hp
    cases hp
    rw [callDepth, setContentLength] at hok
    replace hok := bind_checkMutable_eq_ok hok
    rw [if_neg (by omega), if_neg (by omega), if_pos (by omega), hc, if_neg nofun] at hok
    cases hok
    exact ⟨⟨k, hk, rfl⟩, hm, rfl⟩

theorem add_transferEncoding (hok : h.add transferEncodingHeader vl = .ok h') :
    h'.mutable = h.mutable ∧ (vl = ascii "chunked" ∨ SameFraming h h') := by
  have ha : h.add transferEncodingHeader vl = h.addTransferEncoding vl := by
    unfold add
    rw [if_neg (by decide), if_neg (by decide), if_neg (by decide), if_pos rfl]
  rw [ha, addTransferEncoding] at hok
  split_ifs at hok with hc
  · exact ⟨(setters_mutable _).2 hok, .inl hc⟩
  · cases hok
    exact ⟨rfl, .inr ⟨rfl, rfl, rfl⟩⟩

end HttpHeaders

namespace HttpParser

open CharCode Fallible HttpMessage
open HttpHeaders (SameFraming)

variable {Uri : Type} {uri : List UInt8 → Option Uri} {p p' q q' : HttpParser Uri}
  {closed : List (HttpIncoming Uri)} {f : Field} {fields : List Field} {headers : HttpHeaders}

/-! ## Names and values -/

theorem toLowerCaseByte_token : ∀ byte : UInt8, HttpMessage.isTokenChar byte = true →
    toLowerCaseByte byte = lowerCase byte := by
  decide +kernel

theorem toLowerCaseByte_cases : ∀ byte : UInt8, toLowerCaseByte byte = lowerCase byte ∨
    128 ≤ toLowerCaseByte byte ∧ 128 ≤ lowerCase byte := by
  decide +kernel

theorem map_toLowerCaseByte (f : Field) : f.name.map toLowerCaseByte = f.name.map lowerCase :=
  map_congr_left fun b hb => toLowerCaseByte_token b (f.name_token b hb)

theorem map_toLowerCaseByte_eq_iff {vl word : List UInt8} (hwr : ∀ b ∈ word, b < 128) :
    word = vl.map toLowerCaseByte ↔ vl.map lowerCase = word := by
  induction vl generalizing word with
  | nil => exact eq_comm
  | cons b vl ih =>
    cases word with
    | nil => simp
    | cons w word =>
      have hw := hwr w mem_cons_self
      have hb : w = toLowerCaseByte b ↔ lowerCase b = w := by
        rcases toLowerCaseByte_cases b with h | ⟨h, h'⟩
        · rw [h, eq_comm]
        constructor
        · rintro rfl
          exact absurd hw (UInt8.not_lt.mpr h)
        · rintro rfl
          exact absurd hw (UInt8.not_lt.mpr h')
      rw [map_cons, map_cons, cons.injEq, cons.injEq, hb, ih fun b hb => hwr b (.tail _ hb)]

theorem caseInsensitiveCompare_iff {vl word : List UInt8} (hw : ∀ b ∈ word, b < 128) :
    caseInsensitiveCompare word vl = true ↔ vl.map lowerCase = word := by
  rw [caseInsensitiveCompare, decide_eq_true_eq, map_toLowerCaseByte_eq_iff hw]
  refine ⟨fun h => h.2, fun h => ⟨?_, h⟩⟩
  rw [← h, length_map]

/-- The value begins on the line of the field's name. -/
def beginsAtName (f : Field) : Bool := !f.first.text.all isBlank

/-- The value as the parser has it. -/
def parsedValue (f : Field) : List UInt8 := removeTrailingSpaces f.unfolded

theorem skipBlank_unfolded (h : beginsAtName f = true) : skipBlank f.unfolded = f.unfolded := by
  have hne : skipBlank f.first.text ≠ [] := by
    intro hn
    rw [skipBlank, dropWhile_eq_nil_iff] at hn
    rw [beginsAtName, not_eq_true', ← not_eq_true, all_eq_true] at h
    exact h hn
  obtain ⟨b, text, ht⟩ := exists_cons_of_ne_nil hne
  have hb : ¬ isBlank b = true := by
    have hhd := head_dropWhile_not isBlank hne
    have hc : (skipBlank f.first.text).head hne = b := by simp [ht]
    rw [show (List.dropWhile isBlank f.first.text).head hne = b from hc] at hhd
    rw [hhd]
    simp
  rw [Field.unfolded, ht, cons_append, skipBlank, dropWhile_cons_of_neg hb]

theorem parsedValue_eq (h : beginsAtName f = true) : parsedValue f = f.value := by
  rw [parsedValue, Field.value, trim, skipBlank_unfolded h]
  rfl

/-- A value that begins with something else than a blank begins at the name. -/
theorem beginsAtName_of_cons {b : UInt8} {text : List UInt8} (h : parsedValue f = b :: text)
    (hb : isBlank b = false) : beginsAtName f = true := by
  have hbg : b :: text <+: f.unfolded := by
    rw [← h]
    exact rdropWhile_prefix _ _
  by_contra hbn
  rw [not_eq_true, beginsAtName, not_eq_false', all_eq_true] at hbn
  have hn : skipBlank f.first.text = [] := dropWhile_eq_nil_iff.mpr hbn
  rw [Field.unfolded, hn, nil_append] at hbg
  cases hfl : f.folds with
  | nil =>
    rw [hfl, flatMap_nil, prefix_nil] at hbg
    cases hbg
  | cons l folds =>
    rw [hfl, flatMap_cons, cons_append, cons_prefix_cons] at hbg
    rw [hbg.1] at hb
    cases hb

/-- **Which fields say chunked** to the parser. -/
def saysChunked (f : Field) : Bool :=
  isTransferEncoding f ∧ beginsAtName f ∧ f.value.map lowerCase = ascii "chunked"

theorem compare_chunked_iff :
    caseInsensitiveCompare (ascii "chunked") (parsedValue f) = true ↔
      beginsAtName f = true ∧ f.value.map lowerCase = ascii "chunked" := by
  rw [caseInsensitiveCompare_iff (by decide +kernel)]
  constructor
  · intro h
    have hbg : beginsAtName f = true := by
      cases hv : parsedValue f with
      | nil =>
        rw [hv] at h
        exact absurd h (by decide)
      | cons b text =>
        rw [hv, map_cons] at h
        have hfr : lowerCase b = 99 := (cons.inj h).1
        refine beginsAtName_of_cons hv ?_
        have key : ∀ b : UInt8, lowerCase b = 99 → isBlank b = false := by decide +kernel
        exact key b hfr
    rw [parsedValue_eq hbg] at h
    exact ⟨hbg, h⟩
  · rintro ⟨hbg, h⟩
    rw [parsedValue_eq hbg]
    exact h

theorem parsedValue_of_digits (h : digitsValidator (parsedValue f) = true) :
    parsedValue f = f.value := by
  obtain ⟨hne, ha⟩ := of_decide_eq_true h
  obtain ⟨b, text, hv⟩ := exists_cons_of_ne_nil hne
  refine parsedValue_eq (beginsAtName_of_cons hv ?_)
  rw [hv, all_cons, and_eq_true] at ha
  have key : ∀ b : UInt8, isDigit b = true → isBlank b = false := by decide +kernel
  exact key b ha.1

/-- **Which fields ask for an upgrade**. -/
def asksUpgrade (f : Field) : Bool :=
  f.named (ascii "connection") ∧
    (tokenizeFieldValue (parsedValue f)).any (caseInsensitiveCompare (ascii "upgrade"))

/-! ## Lengths before and after the first transfer encoding -/

def earlyLengths (fields : List Field) : List Field :=
  (fields.takeWhile fun f => !isTransferEncoding f).filter isContentLength

def lateLengths (fields : List Field) : List Field :=
  (fields.dropWhile fun f => !isTransferEncoding f).filter isContentLength

theorem earlyLengths_append_lateLengths (fields : List Field) :
    earlyLengths fields ++ lateLengths fields = fields.filter isContentLength := by
  rw [earlyLengths, lateLengths, ← filter_append, takeWhile_append_dropWhile]

theorem earlyLengths_concat (fields : List Field) (f : Field) :
    earlyLengths (fields ++ [f]) =
      if fields.any isTransferEncoding ∨ isTransferEncoding f ∨ ¬ isContentLength f then
        earlyLengths fields else earlyLengths fields ++ [f] := by
  induction fields with
  | nil =>
    cases hte : isTransferEncoding f <;> cases hcl : isContentLength f <;>
      simp [earlyLengths, hte, hcl]
  | cons g fields ih =>
    cases hg : isTransferEncoding g with
    | true => simp [earlyLengths, hg]
    | false =>
      simp only [earlyLengths, cons_append, takeWhile_cons, hg, Bool.not_false, if_true,
        filter_cons, any_cons, Bool.false_or] at ih ⊢
      rw [ih]
      split_ifs <;> rfl

/-! ## What is noted of the fields -/

/-- The content length of the headers after the fields. -/
def LengthOf : List Field → Int → Prop
  | [], n => n = -1
  | [f], n => ∃ k : Nat, decimal f.value = some k ∧ n = k
  | _, _ => False

structure HeadersNoted (fields : List Field) (h : HttpHeaders) : Prop where
  mutable : h.mutable = true
  length : fields.any saysChunked = false → LengthOf (earlyLengths fields) h.contentLength
  fresh : fields.any isTransferEncoding = false → h.chunkedTransferEncoding = false

/-- What the parser knows after the fields. -/
structure Noted (closed : List (HttpIncoming Uri)) (fields : List Field) (q : HttpParser Uri) :
    Prop where
  requestParser : q.requestParser = true
  messageType : q.messageType = MessageType.REQUEST
  headerField : q.headerField = []
  headerValue : q.headerValue = []
  remainingContent : q.remainingContent = -1
  incoming : q.incoming = none
  closed_eq : q.closed = closed
  transferEncoding : q.transferEncoding = fields.any isTransferEncoding
  chunked : q.chunked = fields.any saysChunked
  connectionUpgrade : q.connectionUpgrade = fields.any asksUpgrade
  contentLength : q.contentLength = true ↔
    fields.any isTransferEncoding = false ∧ earlyLengths fields ≠ []
  headers : ∃ h, q.headers = some h ∧ HeadersNoted fields h

theorem AtHeaders.noted {ver : ProtocolVersion} (hp : AtHeaders closed p) :
    Noted closed [] { p with headers := some (create ver) } := by
  have hb := hp.blank
  refine ⟨hb.requestParser, hp.messageType, hb.headerField, hb.headerValue, hb.remainingContent,
    hb.incoming, hb.closed_eq, hb.transferEncoding, hb.chunked, hb.connectionUpgrade, ?_,
    create ver, rfl, rfl, fun _ => rfl, fun _ => rfl⟩
  simp [hb.contentLength, earlyLengths]

theorem named_iff {name : List UInt8} :
    f.named name = true ↔ f.name.map toLowerCaseByte = name := by
  rw [Field.named, decide_eq_true_eq, map_toLowerCaseByte]

theorem saysChunked_isTransferEncoding (h : saysChunked f = true) : isTransferEncoding f = true :=
  (of_decide_eq_true h).1

theorem any_saysChunked_of_any (h : fields.any isTransferEncoding = false) :
    fields.any saysChunked = false := by
  rw [any_eq_false] at h ⊢
  exact fun f hf hsy => h f hf (saysChunked_isTransferEncoding hsy)

theorem noteFraming_contentLength (hf : p.headerField = contentLengthHeader)
    (h : p.noteFraming = .ok p') :
    p.contentLength = false ∧ p' = { p with contentLength := !p.transferEncoding } := by
  rw [noteFraming, if_pos hf] at h
  split_ifs at h with hl
  cases h
  refine ⟨by simpa using hl, ?_⟩
  cases p.transferEncoding <;> rfl

theorem noteFraming_transferEncoding (hf : p.headerField = transferEncodingHeader)
    (h : p.noteFraming = .ok p') :
    p' = { p with
      transferEncoding := true
      chunked := p.chunked || caseInsensitiveCompare (ascii "chunked") p.headerValue
      contentLength := false } := by
  rw [noteFraming, if_neg (by rw [hf]; decide), if_pos hf] at h
  cases h
  rw [decide_or, Bool.decide_eq_true, Bool.decide_eq_true]

theorem noteFraming_other (hl : p.headerField ≠ contentLengthHeader)
    (he : p.headerField ≠ transferEncodingHeader) (h : p.noteFraming = .ok p') :
    p' = p := by
  rw [noteFraming, if_neg hl, if_neg he] at h
  cases h
  rfl

section
variable (h : p.tableField = .ok p') (hconnection : p.headerField ≠ HttpHeaders.connectionHeader)
include h hconnection

theorem tableField_add
    (hf : p.headerField ≠ contentLengthHeader ∨ p.transferEncoding = false)
    (hhd : p.headers = some headers) :
    ∃ headers', headers.add p.headerField p.headerValue = .ok headers' ∧
      p' = { p with headers := some headers' } := by
  rw [tableField, hhd] at h
  dsimp only at h
  rw [if_neg hconnection, if_pos (by rwa [not_eq_true])] at h
  obtain ⟨headers', ha, rfl⟩ := map_eq_ok h
  exact ⟨headers', ha, rfl⟩

theorem tableField_skip
    (hf : p.headerField = contentLengthHeader) (hte : p.transferEncoding = true)
    (hhd : p.headers = some headers) : p' = p := by
  rw [tableField, hhd] at h
  dsimp only at h
  rw [if_neg hconnection, if_neg (by rintro (hne | hne); exacts [hne hf, hne hte])] at h
  cases h
  rfl

end

/-- The message is a request, or a response with one of two codes. -/
def mayUpgrade (p : HttpParser Uri) : Bool :=
  p.messageType = MessageType.RESPONSE → p.statusCode = 426 ∨ p.statusCode = 101

/-- The tokens of a `connection` header matter for an upgrade only. -/
theorem connectionTokens_eq (headers : HttpHeaders) (hh : p.headers = some headers)
    (ts : List (List UInt8)) :
    ∃ headers', SameFraming headers headers' ∧
      p.connectionTokens headers ts = { p with
        connectionUpgrade := p.connectionUpgrade ||
          (p.mayUpgrade && ts.any (caseInsensitiveCompare (ascii "upgrade")))
        headers := some headers' } := by
  induction ts generalizing p headers with
  | nil =>
    refine ⟨headers, .refl headers, ?_⟩
    rw [any_nil, Bool.and_false, Bool.or_false, ← hh]
    rfl
  | cons token ts ih =>
    obtain ⟨headers', hsm, heq⟩ := ih (p := p.connectionToken headers token)
      (headers.addConnection p.headerField token) rfl
    refine ⟨headers', (addConnection_sameFraming _ _ _).trans hsm, ?_⟩
    refine heq.trans ?_
    have hu : (p.connectionToken headers token).connectionUpgrade =
        (p.connectionUpgrade ||
          (p.mayUpgrade && caseInsensitiveCompare (ascii "upgrade") token)) := by
      by_cases hr : p.messageType = MessageType.RESPONSE
      · simp [connectionToken, mayUpgrade, hr, Bool.and_comm]
      · simp [connectionToken, mayUpgrade, hr]
    rw [hu, any_cons, and_or_distrib_left, ← Bool.or_assoc]
    rfl

theorem tableField_connection (h : p.tableField = .ok p')
    (hf : p.headerField = connectionHeader) (hhd : p.headers = some headers) :
    ∃ headers', SameFraming headers headers' ∧ p' = { p with
      connectionUpgrade := p.connectionUpgrade || (p.mayUpgrade &&
        (tokenizeFieldValue p.headerValue).any (caseInsensitiveCompare (ascii "upgrade")))
      headers := some headers' } := by
  rw [tableField, hhd] at h
  dsimp only at h
  rw [if_pos hf] at h
  cases h
  exact connectionTokens_eq headers hhd _

theorem any_concat {α : Type} (P : α → Bool) (xs : List α) (x : α) :
    (xs ++ [x]).any P = (xs.any P || P x) := by
  rw [any_append, any_cons, any_nil, Bool.or_false]

theorem HeadersNoted.same {h h' : HttpHeaders} (hn : HeadersNoted fields h)
    (hsm : SameFraming h h') (hl : earlyLengths (fields ++ [f]) = earlyLengths fields) :
    HeadersNoted (fields ++ [f]) h' := by
  refine ⟨hsm.mutable.trans hn.mutable, fun hsy => ?_, fun hte => ?_⟩
  · rw [hl, hsm.contentLength]
    rw [any_concat, or_eq_false_iff] at hsy
    exact hn.length hsy.1
  · rw [any_concat, or_eq_false_iff] at hte
    exact hsm.chunkedTransferEncoding.trans (hn.fresh hte.1)

/-- The parser at the end of a field, with the value that it reads. -/
def atEnd (q : HttpParser Uri) (size : Nat) (f : Field) : HttpParser Uri :=
  q.inField .headerValueFoldOrEnd size (f.name.map toLowerCaseByte) (parsedValue f)

def withoutField (p : HttpParser Uri) : HttpParser Uri :=
  { p with headerField := [], headerValue := [] }

section

variable {size : Nat} {q1 q2 : HttpParser Uri} (hq : Noted closed fields q)
  (h1 : (atEnd q size f).noteFraming = .ok q1) (h2 : q1.tableField = .ok q2)

include hq h1 h2

theorem Noted.contentLengthField (hf : isContentLength f = true) :
    Noted closed (fields ++ [f]) q2.withoutField := by
  have hnm : f.name.map toLowerCaseByte = contentLengthHeader := named_iff.mp hf
  have hte : isTransferEncoding f = false := by
    rw [isTransferEncoding, Field.named, decide_eq_false_iff_not, ← map_toLowerCaseByte, hnm]
    decide
  have hsy : saysChunked f = false := by
    rw [saysChunked, hte]
    rfl
  have ha : asksUpgrade f = false := by
    rw [asksUpgrade, Field.named, ← map_toLowerCaseByte, hnm]
    rfl
  obtain ⟨h, hhd, hnt⟩ := hq.headers
  obtain ⟨hl, rfl⟩ := noteFraming_contentLength hnm h1
  have hconnection : contentLengthHeader ≠ connectionHeader := by decide
  rw [← hnm] at hconnection
  have hfg {headers : Option HttpHeaders} {state : State} :
      (∃ h', headers = some h' ∧ HeadersNoted (fields ++ [f]) h') →
      Noted closed (fields ++ [f]) (withoutField { q.inField state size (f.name.map toLowerCaseByte)
        (parsedValue f) with contentLength := !q.transferEncoding, headers := headers }) := by
    intro hh
    refine ⟨hq.1, hq.2, rfl, rfl, hq.5, hq.6, hq.7, ?_, ?_, ?_, ?_, hh⟩
    · rw [any_concat, hte, Bool.or_false]
      exact hq.transferEncoding
    · rw [any_concat, hsy, Bool.or_false]
      exact hq.chunked
    · rw [any_concat, ha, Bool.or_false]
      exact hq.connectionUpgrade
    · rw [any_concat, hte, Bool.or_false, earlyLengths_concat, ← hq.transferEncoding]
      show (!q.transferEncoding) = true ↔ _
      cases q.transferEncoding <;> simp [hte, hf]
  cases hfl : q.transferEncoding with
  | true =>
    obtain rfl := tableField_skip h2 hconnection hnm hfl hhd
    refine hfg ⟨h, hhd, hnt.same (.refl h) ?_⟩
    rw [earlyLengths_concat, if_pos (.inl (hq.transferEncoding.symm.trans hfl))]
  | false =>
    have hno : fields.any isTransferEncoding = false := hq.transferEncoding.symm.trans hfl
    have he : earlyLengths fields = [] := by
      by_contra hne
      have hst := hq.contentLength.mpr ⟨hno, hne⟩
      rw [show q.contentLength = false from hl] at hst
      cases hst
    obtain ⟨h', had, rfl⟩ := tableField_add h2 hconnection (.inr hfl) hhd
    have hm := hnt.length (any_saysChunked_of_any hno)
    rw [he] at hm
    rw [show HttpParser.headerField _ = _ from hnm] at had
    obtain ⟨hd, ⟨n, hn, hc⟩, hmt, hch⟩ := add_contentLength hnt.mutable hm (hnt.fresh hno) had
    refine hfg ⟨h', rfl, hmt, fun _ => ?_, fun _ => hch⟩
    rw [earlyLengths_concat, if_neg (by simp [hno, hte, hf]), he]
    refine ⟨n, ?_, hc⟩
    rwa [← parsedValue_of_digits hd]

theorem Noted.transferEncodingField (hf : isTransferEncoding f = true) :
    Noted closed (fields ++ [f]) q2.withoutField := by
  have hnm : f.name.map toLowerCaseByte = transferEncodingHeader := named_iff.mp hf
  have ha : asksUpgrade f = false := by
    rw [asksUpgrade, Field.named, ← map_toLowerCaseByte, hnm]
    rfl
  have hl : earlyLengths (fields ++ [f]) = earlyLengths fields := by
    rw [earlyLengths_concat, if_pos (.inr (.inl hf))]
  have hsy : caseInsensitiveCompare (ascii "chunked") (parsedValue f) = saysChunked f := by
    rw [Bool.eq_iff_iff, compare_chunked_iff, saysChunked, decide_eq_true_eq]
    exact (and_iff_right hf).symm
  obtain ⟨h, hhd, hnt⟩ := hq.headers
  obtain rfl := noteFraming_transferEncoding hnm h1
  have hconnection : transferEncodingHeader ≠ connectionHeader := by decide
  have hc : transferEncodingHeader ≠ contentLengthHeader := by decide
  rw [← hnm] at hconnection hc
  obtain ⟨h', had, rfl⟩ := tableField_add h2 hconnection (.inl hc) hhd
  rw [show HttpParser.headerField _ = _ from hnm] at had
  obtain ⟨hm, hcs⟩ := add_transferEncoding had
  refine ⟨hq.1, hq.2, rfl, rfl, hq.5, hq.6, hq.7, ?_, ?_, ?_, ?_, h', rfl, ?_⟩
  · rw [any_concat, hf, Bool.or_true]
    rfl
  · rw [any_concat, ← hq.chunked, ← hsy]
    rfl
  · rw [any_concat, ha, Bool.or_false]
    exact hq.connectionUpgrade
  · rw [any_concat, hf, Bool.or_true]
    exact ⟨nofun, nofun⟩
  rcases hcs with hv | hsm
  · have hch : saysChunked f = true := by
      rw [← hsy, show parsedValue f = _ from hv]
      decide
    refine ⟨hm.trans hnt.mutable, fun hn => ?_, fun hn => ?_⟩
    · rw [any_concat, hch, Bool.or_true] at hn
      cases hn
    · rw [any_concat, hf, Bool.or_true] at hn
      cases hn
  · exact hnt.same hsm hl

/-- The field is neither of the two. -/
theorem Noted.otherField (hc : isContentLength f = false)
    (he : isTransferEncoding f = false) : Noted closed (fields ++ [f]) q2.withoutField := by
  have hne {name : List UInt8} (hf : f.named name = false) : f.name.map toLowerCaseByte ≠ name := by
    intro heq
    rw [named_iff.mpr heq] at hf
    cases hf
  have hsy : saysChunked f = false := by
    rw [saysChunked, he]
    rfl
  have hl : earlyLengths (fields ++ [f]) = earlyLengths fields := by
    rw [earlyLengths_concat, if_pos (.inr (.inr (by rw [hc]; nofun)))]
  obtain ⟨h, hhd, hn⟩ := hq.headers
  obtain rfl := noteFraming_other (hne hc) (hne he) h1
  have hfl {upgrade : Bool} {h' : HttpHeaders} :
      upgrade = (q.connectionUpgrade || asksUpgrade f) → SameFraming h h' →
      Noted closed (fields ++ [f])
        (withoutField
          { atEnd q size f with connectionUpgrade := upgrade, headers := some h' }) := by
    intro hu hsm
    refine ⟨hq.1, hq.2, rfl, rfl, hq.5, hq.6, hq.7, ?_, ?_, ?_, ?_, h', rfl, hn.same hsm hl⟩
    · rw [any_concat, he, Bool.or_false]
      exact hq.transferEncoding
    · rw [any_concat, hsy, Bool.or_false]
      exact hq.chunked
    · rw [any_concat, ← hq.connectionUpgrade]
      exact hu
    · rw [any_concat, he, Bool.or_false, hl]
      exact hq.contentLength
  cases hconnection : f.named (ascii "connection") with
  | true =>
    have hnm := named_iff.mp hconnection
    obtain ⟨h', hsm, rfl⟩ := tableField_connection h2 hnm hhd
    refine hfl ?_ hsm
    have hm : mayUpgrade (atEnd q size f) = true :=
      decide_eq_true fun hr => absurd (hq.messageType.symm.trans hr) (by decide)
    rw [hm, asksUpgrade, hconnection, decide_and, Bool.decide_eq_true, Bool.decide_eq_true]
    rfl
  | false =>
    obtain ⟨h', ha, rfl⟩ := tableField_add h2 (hne hconnection) (.inl (hne hc)) hhd
    refine hfl ?_ (add_sameFraming (hne hc) (hne he) ha)
    rw [asksUpgrade, hconnection]
    exact (Bool.or_false _).symm

end

/-- **What the parser notes of a field**. -/
theorem Noted.field (hq : Noted closed fields q)
    (hp : Collects q .headerValueFoldOrEnd (f.name.map toLowerCaseByte) f.unfolded p)
    (h : p.fieldEnd = .ok q') : Noted closed (fields ++ [f]) q' := by
  obtain ⟨size, rfl⟩ := hp
  obtain ⟨q1, h1, h⟩ := bind_eq_ok h
  obtain ⟨q2, h2, h⟩ := bind_eq_ok h
  cases h
  cases hc : isContentLength f with
  | true => exact hq.contentLengthField h1 h2 hc
  | false =>
    cases he : isTransferEncoding f with
    | true => exact hq.transferEncodingField h1 h2 he
    | false => exact hq.otherField h1 h2 hc he

/-! ## The elements of a connection field -/

/-- The token of an element: it loses a byte at the front for every blank. -/
def tokenOf (element : List UInt8) : List UInt8 := element.drop (element.countP isBlank)

theorem tokenizeLoop_eq (vl pre el rest : List UInt8) (ts : List (List UInt8))
    {st ix : Nat} (hv : vl = pre ++ el ++ rest) (hcm : COMMA ∉ el)
    (hst : st = pre.length + el.countP isBlank)
    (hi : ix = pre.length + el.length) :
    tokenizeLoop vl rest st ix ts = ts ++ ((el ++ rest).splitOn COMMA).map tokenOf := by
  have ht : (vl.take ix).drop st = tokenOf el := by
    rw [hv, hi, ← length_append, take_left, hst, ← drop_drop, drop_left, tokenOf]
  match rest with
  | [] => simp [tokenizeLoop, ht, splitOn_eq_singleton hcm]
  | byte :: rest =>
    rw [tokenizeLoop]
    by_cases hc : byte = COMMA
    · subst hc
      rw [if_pos rfl, ht, splitOn_append_cons_self_of_not_mem hcm,
        @tokenizeLoop_eq vl (pre ++ el ++ [COMMA]) [] rest _ (ix + 1) (ix + 1)
          (by simp [hv]) (by simp) (by simp [hi, Nat.add_assoc])
          (by simp [hi, Nat.add_assoc]), append_assoc]
      rfl
    · have hm : COMMA ∉ el ++ [byte] := by simp [hcm, Ne.symm hc]
      rw [if_neg hc, append_cons el]
      have hn {start' : Nat} := @tokenizeLoop_eq vl pre (el ++ [byte]) rest ts start'
        (ix + 1) (by simp [hv]) hm
      split_ifs with hb
      · have : isBlank byte = true := decide_eq_true hb
        exact hn (by simp [this, hst, Nat.add_assoc]) (by simp [hi, Nat.add_assoc])
      · have : isBlank byte = false := decide_eq_false hb
        exact hn (by simp [this, hst]) (by simp [hi, Nat.add_assoc])

theorem tokenizeFieldValue_eq (vl : List UInt8) :
    tokenizeFieldValue vl = (vl.splitOn COMMA).map tokenOf :=
  tokenizeLoop_eq vl [] [] vl [] rfl nofun rfl rfl

theorem tokenOf_append {blanks word : List UInt8} (hbl : ∀ b ∈ blanks, isBlank b = true)
    (hw : ∀ b ∈ word, isBlank b = false) : tokenOf (blanks ++ word) = word := by
  have hn : word.countP isBlank = 0 := by simpa [countP_eq_zero] using hw
  rw [tokenOf, countP_append, countP_eq_length.2 hbl, hn, Nat.add_zero, drop_left]

/-- An element with blanks only at its front. -/
theorem tokenOf_eq_trim {el : List UInt8} (h : ∀ b ∈ skipBlank el, isBlank b = false) :
    tokenOf el = trim el := by
  have hw := @tokenOf_append (el.takeWhile isBlank) _ (fun _ hb => mem_takeWhile_imp hb) h
  rw [skipBlank, takeWhile_append_dropWhile] at hw
  rw [hw, trim, rdropWhile_eq_self_iff.2]
  · rfl
  · intro hne
    rw [h _ (getLast_mem hne)]
    simp

/-- The last byte of a token that is the trimmed element is the last byte of the element. -/
theorem trim_eq_skipBlank {el : List UInt8} (hne : skipBlank el ≠ []) (h : tokenOf el = trim el) :
    trim el = skipBlank el := by
  have htr : trim el ≠ [] := by
    intro hnil
    have hd : isBlank ((skipBlank el).head hne) = false := head_dropWhile_not isBlank hne
    rw [rdropWhile_eq_nil_iff.1 hnil _ (head_mem hne)] at hd
    cases hd
  have hl : (trim el).getLast htr = (skipBlank el).getLast hne := by
    have htl : trim el <:+ el := h ▸ drop_suffix _ _
    have hsk : skipBlank el <:+ el := dropWhile_suffix isBlank
    rw [htl.getLast htr, hsk.getLast hne]
  refine rdropWhile_eq_self_iff.2 fun hne' => ?_
  rw [← hl]
  exact rdropWhile_last_not _ _ htr

theorem tokenOf_eq_trim_iff {el : List UInt8} :
    tokenOf el = trim el ↔ ∀ b ∈ skipBlank el, isBlank b = false := by
  refine ⟨fun h => ?_, tokenOf_eq_trim⟩
  by_cases hne : skipBlank el = []
  · simp [hne]
  -- The token is as long as the element without the blanks at its front.
  have hl := congrArg length (h.trans (trim_eq_skipBlank hne h))
  have hel : el = el.takeWhile isBlank ++ skipBlank el := takeWhile_append_dropWhile.symm
  have hbl : (el.takeWhile isBlank).countP isBlank = (el.takeWhile isBlank).length :=
    countP_eq_length.2 fun _ hb => mem_takeWhile_imp hb
  have hc : (skipBlank el).countP isBlank ≤ (skipBlank el).length := countP_le_length
  have hz : (skipBlank el).countP isBlank = 0 := by
    have hcn := congrArg (countP isBlank) hel
    have hln := congrArg length hel
    rw [countP_append, hbl] at hcn
    rw [length_append] at hln
    rw [tokenOf, length_drop, hcn, hln] at hl
    omega
  simpa [countP_eq_zero] using hz

/-- **The upgrade of a connection**. The tokens are the elements of the field, which decide it, iff
no element has a blank after its beginning. -/
theorem fieldEnd_upgrade_iff (hf : p.headerField = HttpHeaders.connectionHeader)
    (hheaders : p.headers = some headers) :
    let elements := ((removeTrailingSpaces p.headerValue).splitOn COMMA).map trim
    (tokenizeFieldValue (removeTrailingSpaces p.headerValue) = elements ∧
      ∃ p', p.fieldEnd = .ok p' ∧ (p'.connectionUpgrade = true ↔ p.connectionUpgrade = true ∨
        (p.messageType = MessageType.RESPONSE → p.statusCode = 426 ∨ p.statusCode = 101) ∧
          ∃ e ∈ elements, e.map lowerCase = ascii "upgrade")) ↔
    ∀ e ∈ (removeTrailingSpaces p.headerValue).splitOn COMMA, ∀ b ∈ skipBlank e,
      isBlank b = false := by
  intro elements
  have htk : tokenizeFieldValue (removeTrailingSpaces p.headerValue) = elements ↔
      ∀ e ∈ (removeTrailingSpaces p.headerValue).splitOn COMMA, ∀ b ∈ skipBlank e,
        isBlank b = false := by
    rw [tokenizeFieldValue_eq, map_inj_left]
    exact forall₂_congr fun e _ => tokenOf_eq_trim_iff
  rw [← htk, and_iff_left_iff_imp]
  intro ht
  have hc (e : List UInt8) : caseInsensitiveCompare (ascii "upgrade") e = true ↔ _ :=
    caseInsensitiveCompare_iff (by decide +kernel)
  let r : HttpParser Uri := { p with headerValue := removeTrailingSpaces p.headerValue }
  have hr : r.headerField = connectionHeader := hf
  have hn : r.noteFraming = .ok r := by
    rw [noteFraming, if_neg (by rw [hr]; decide), if_neg (by rw [hr]; decide)]
  obtain ⟨headers', -, heq⟩ := connectionTokens_eq (p := r) headers hheaders elements
  have htb : r.tableField = .ok (r.connectionTokens headers elements) := by
    rw [tableField, show r.headers = some headers from hheaders, ← ht]
    exact if_pos hr
  refine ⟨(r.connectionTokens headers elements).withoutField, ?_, ?_⟩
  · rw [fieldEnd, show noteFraming _ = _ from hn, ok_bind, htb]
    rfl
  · simp [heq, withoutField, mayUpgrade, hc, imp_iff_not_or, r]

/-- A request with this value of its connection field. -/
def connectionField (vl : String) : HttpParser Unit :=
  { requestParser := true, messageType := MessageType.REQUEST, headers := some (.create .http11)
    headerField := HttpHeaders.connectionHeader, headerValue := ascii vl }

theorem fieldEnd_upgrade_elements : ∃ p', (connectionField "close, Upgrade").fieldEnd = .ok p' ∧
    p'.connectionUpgrade = true := by
  obtain ⟨-, p', hp', hi⟩ :=
    (fieldEnd_upgrade_iff (p := connectionField "close, Upgrade") rfl rfl).2 (by decide +kernel)
  exact ⟨p', hp', hi.2 (.inr ⟨by decide, by decide +kernel⟩)⟩

/-- A blank after an element takes its first letter and stays. -/
theorem fieldEnd_blank :
    tokenizeFieldValue (ascii "upgrade ,close") = [ascii "pgrade ", ascii "close"] ∧
      (connectionField "upgrade ,close").fieldEnd.toOption.map connectionUpgrade = some false := by
  decide +kernel

end HttpParser

end Http
