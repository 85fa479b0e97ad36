import DartSdk.Http.HttpParser
import DartSdk.Lib.Fallible

/-!
# The HTTP parser byte by byte

The parser reads a body in blocks, looks at a single LF twice, and leaves its loop at the end of a
head. Here it is shown that it does what it would do with one byte at a time, however the connection
is cut into buffers (`onDataAll_eq`).
-/

namespace Http.HttpParser

open CharCode Fallible List

variable {Uri : Type} {parseUri : List UInt8 → Option Uri} {p p' : HttpParser Uri} {byte : UInt8}
  {next : Next} {list : Collected} {r : Progress Uri} {rest buf : List UInt8} {fuel : Nat}

/-! ## What is left of a body -/

/-- The values of `_remainingContent` in each of the states in which there may be more data. -/
def RemainingOk : State → Int → Prop
  | .body, r => r = -1 ∨ 0 < r
  | .chunkSizeStartingCr, r | .chunkSizeStarting, r | .chunkSize, r | .chunkSizeExtension, r
  | .chunkSizeEnding, r | .chunkedBodyDoneCr, r | .chunkedBodyDone, r => 0 ≤ r
  | .upgraded, _ => True
  | .closed, _ | .failure, _ => False
  | _, r => r = -1

def Sound (p : HttpParser Uri) : Prop := RemainingOk p.state p.remainingContent

theorem Sound.of_state {st : State} (hs : p.state = st) (hp : RemainingOk st p.remainingContent) :
    Sound p := by
  rw [Sound, hs]
  exact hp

theorem addWithValidation_eq_ok (h : p.addWithValidation list byte = .ok p') :
    p' = push { p with headersReceivedSize := p.headersReceivedSize + 1 } byte list := by
  unfold addWithValidation at h
  split_ifs at h
  cases h
  rfl

/-- Collecting bytes does not matter for the rest of the state. -/
theorem addWithValidation_sound (h : p.addWithValidation list byte = .ok p') :
    p'.state = p.state ∧ p'.remainingContent = p.remainingContent := by
  rw [addWithValidation_eq_ok h]
  cases list <;> exact ⟨rfl, rfl⟩

variable {bs data xs ys : List UInt8}

theorem addAllWithValidation_sound (h : p.addAllWithValidation list bs = .ok p') : p'.state =
    p.state ∧ p'.remainingContent = p.remainingContent := by
  refine foldlM_keeps (P := fun q => q.state = p.state ∧ q.remainingContent = p.remainingContent)
    (fun _ hq ha => ?_) ⟨rfl, rfl⟩ h
  obtain ⟨hst, hr⟩ := addWithValidation_sound ha
  exact ⟨hst.trans hq.1, hr.trans hq.2⟩

theorem expect_eq_ok {val1 val2 : UInt8} {u : Unit} (h : expect val1 val2 = .ok u) :
    val1 = val2 := by
  unfold expect at h
  split_ifs at h with hne
  exact not_not.mp hne

/-- The states that are entered with an LF that is seen again. -/
def IsEnding : State → Prop
  | .requestLineEnding | .responseLineEnding | .headerEnding | .chunkSizeStarting
  | .chunkSizeEnding | .chunkedBodyDone => True
  | _ => False

/-- The parser may go on after a byte. -/
def Goes (byte : UInt8) (r : Progress Uri) : Prop :=
  Sound r.1 ∧ (r.2 = .again → byte = LF ∧ IsEnding r.1.state)

theorem Goes.proceed (h : Sound p) : Goes byte (p, .proceed) := ⟨h, nofun⟩

theorem Goes.leave (h : Sound p) : Goes byte (p, .leave) := ⟨h, nofun⟩

theorem map_proceed_goes {b : UInt8} (hp : Sound p)
    (h : (p.addWithValidation list b).map (·, .proceed) = .ok r) : Goes byte r := by
  obtain ⟨q, hq, rfl⟩ := map_eq_ok h
  obtain ⟨hst, hrm⟩ := addWithValidation_sound hq
  refine .proceed ?_
  rw [Sound, hst, hrm]
  exact hp

theorem checked_goes {check : Except HttpError Unit}
    (h : (check >>= fun _ => .ok (p, Next.proceed)) = .ok r) (hp : Sound p) : Goes byte r := by
  obtain ⟨-, -, h⟩ := bind_eq_ok h
  cases h
  exact .proceed hp

theorem lineEnd_goes {st : State} {ot : Except HttpError (Progress Uri)} {r : Progress Uri}
    (h : p.lineEnd byte st ot = .ok r) (hst : IsEnding st)
    (hp : RemainingOk st p.remainingContent) (ho : ∀ r, ot = .ok r → Goes byte r) :
    Goes byte r := by
  unfold lineEnd at h
  split_ifs at h with hcr hlf
  · cases h
    exact .proceed hp
  · cases h
    exact ⟨hp, fun _ => ⟨hlf, hst⟩⟩
  · exact ho r h

theorem noteFraming_remaining (h : p.noteFraming = .ok p') :
    p'.remainingContent = p.remainingContent := by
  unfold noteFraming at h
  split_ifs at h <;> cases h <;> rfl

theorem connectionTokens_remaining (headers : HttpHeaders) (ts : List (List UInt8)) :
    (p.connectionTokens headers ts).remainingContent = p.remainingContent := by
  induction ts generalizing p headers with
  | nil => rfl
  | cons token ts ih =>
    rw [connectionTokens, ih]
    rfl

theorem fieldEnd_remaining (h : p.fieldEnd = .ok p') :
    p'.remainingContent = p.remainingContent := by
  obtain ⟨q, hq, h⟩ := bind_eq_ok h
  obtain ⟨q', hq', h⟩ := bind_eq_ok h
  cases h
  have hn := noteFraming_remaining hq
  refine Eq.trans ?_ hn
  unfold tableField at hq'
  split at hq'
  · cases hq'
  split_ifs at hq'
  · cases hq'
    exact connectionTokens_remaining _ _
  · obtain ⟨headers, -, rfl⟩ := map_eq_ok hq'
    rfl
  · cases hq'
    rfl

theorem reset_sound (hp : p.state ≠ .upgraded) : Sound p.reset.closeIncoming := by
  unfold reset
  rw [if_neg hp]
  rfl

/-! ## The start line -/

section
variable (hp : p.remainingContent = -1)
include hp

theorem readStart_goes (h : p.readStart byte = .ok r) : Goes byte r := by
  unfold readStart at h
  split_ifs at h
  · cases h
    exact .proceed hp
  obtain ⟨q, hq, h⟩ := bind_eq_ok h
  split_ifs at h
  cases h
  exact .proceed ((addWithValidation_sound hq).2.trans hp)

theorem readMethodOrResponseHttpVersion_goes (hs : p.state = .methodOrResponseHttpVersion)
    (h : p.readMethodOrResponseHttpVersion byte = .ok r) : Goes byte r := by
  unfold readMethodOrResponseHttpVersion at h
  split_ifs at h
  · cases h
    exact .proceed (.of_state hs hp)
  · cases h
    exact .proceed hp
  · obtain ⟨q, hq, h⟩ := bind_eq_ok h
    cases h
    exact .proceed ((addAllWithValidation_sound hq).2.trans hp)
  obtain ⟨q, hq, h⟩ := bind_eq_ok h
  obtain ⟨q', hq', h⟩ := bind_eq_ok h
  split_ifs at h
  cases h
  have hq := (addAllWithValidation_sound hq).2.trans hp
  exact .proceed ((addWithValidation_sound hq').2.trans hq)

theorem readResponseHttpVersion_goes (hs : p.state = .responseHttpVersion)
    (h : p.readResponseHttpVersion byte = .ok r) : Goes byte r := by
  have hsn : Sound p := .of_state hs hp
  unfold readResponseHttpVersion at h
  split_ifs at h
  · exact checked_goes h hsn
  · cases h
    exact .proceed hsn
  · cases h
    exact .proceed hsn
  · exact checked_goes h hp

theorem readRequestLineMethod_goes (hs : p.state = .requestLineMethod)
    (h : p.readRequestLineMethod byte = .ok r) : Goes byte r := by
  unfold readRequestLineMethod at h
  split_ifs at h
  · cases h
    exact .proceed hp
  · exact map_proceed_goes (.of_state hs hp) h

theorem readRequestLineUri_goes (hs : p.state = .requestLineUri)
    (h : p.readRequestLineUri byte = .ok r) : Goes byte r := by
  unfold readRequestLineUri at h
  split_ifs at h
  · cases h
    exact .proceed hp
  · exact map_proceed_goes (.of_state hs hp) h

theorem readRequestLineHttpVersion_goes (hs : p.state = .requestLineHttpVersion)
    (h : p.readRequestLineHttpVersion byte = .ok r) : Goes byte r := by
  have hsn : Sound p := .of_state hs hp
  unfold readRequestLineHttpVersion at h
  split_ifs at h
  · exact checked_goes h hsn
  · cases h
    exact .proceed hsn
  · cases h
    exact .proceed hsn
  · refine lineEnd_goes h trivial hp fun r hr => ?_
    cases hr
    exact .proceed hsn

theorem readResponseLineStatusCode_goes (hs : p.state = .responseLineStatusCode)
    (h : p.readResponseLineStatusCode byte = .ok r) : Goes byte r := by
  unfold readResponseLineStatusCode at h
  split at h
  · cases h
    exact .proceed hp
  refine lineEnd_goes h trivial hp fun r hr => ?_
  split_ifs at hr
  cases hr
  exact .proceed (.of_state hs hp)

theorem readResponseLineReasonPhrase_goes (hs : p.state = .responseLineReasonPhrase)
    (h : p.readResponseLineReasonPhrase byte = .ok r) : Goes byte r :=
  lineEnd_goes h trivial hp fun _ hr => map_proceed_goes (.of_state hs hp) hr

/-! ## The header fields -/

theorem headerLine_goes (h : p.headerLine byte = .ok r) : Goes byte r :=
  lineEnd_goes h trivial hp fun _ hr => map_proceed_goes (by exact hp) hr

theorem readHeaderStart_goes (h : p.readHeaderStart byte = .ok r) : Goes byte r := by
  unfold readHeaderStart at h
  split at h
  · cases h
  · exact headerLine_goes (by exact hp) h

theorem readHeaderField_goes (hs : p.state = .headerField) (h : p.readHeaderField byte = .ok r) :
    Goes byte r := by
  unfold readHeaderField at h
  split_ifs at h
  · cases h
    exact .proceed hp
  · exact map_proceed_goes (.of_state hs hp) h

theorem readHeaderValueStart_goes (hs : p.state = .headerValueStart)
    (h : p.readHeaderValueStart byte = .ok r) : Goes byte r := by
  unfold readHeaderValueStart at h
  split_ifs at h
  · cases h
    exact .proceed hp
  · cases h
    exact .proceed hp
  · obtain ⟨q, hq, rfl⟩ := map_eq_ok h
    exact .proceed ((addWithValidation_sound hq).2.trans hp)
  · cases h
    exact .proceed (.of_state hs hp)

theorem readHeaderValue_goes (hs : p.state = .headerValue) (h : p.readHeaderValue byte = .ok r) :
    Goes byte r := by
  unfold readHeaderValue at h
  split_ifs at h
  · cases h
    exact .proceed hp
  · cases h
    exact .proceed hp
  · exact map_proceed_goes (.of_state hs hp) h

theorem readHeaderValueFoldOrEnd_goes (h : p.readHeaderValueFoldOrEnd byte = .ok r) : Goes byte r := by
  unfold readHeaderValueFoldOrEnd at h
  split at h
  · obtain ⟨q, hq, rfl⟩ := map_eq_ok h
    exact .proceed ((addWithValidation_sound hq).2.trans hp)
  · obtain ⟨q, hq, h⟩ := bind_eq_ok h
    exact headerLine_goes ((fieldEnd_remaining hq).trans hp) h

theorem startBody_goes (hs : p.state = .headerEnding) (inc : HttpIncoming Uri) : Goes byte
    (p.startBody inc) := by
  unfold startBody
  dsimp only
  split_ifs with hu he hc hl
  · exact .leave trivial
  · refine .proceed (reset_sound ?_)
    rw [hs]
    nofun
  · exact .leave (Int.le_refl 0)
  · exact .leave (.inr hl)
  · exact .leave (.inl hp)

theorem headersEnd_goes (hs : p.state = .headerEnding) (h : p.headersEnd parseUri = .ok r) : Goes
    byte r := by
  unfold headersEnd at h
  split at h
  · cases h
  obtain ⟨headers, -, h⟩ := bind_eq_ok h
  obtain ⟨incoming, -, rfl⟩ := map_eq_ok h
  refine startBody_goes ?_ ?_ incoming
  · split_ifs
    · exact hp
    · exact hp
  · split_ifs
    · exact hs
    · exact hs

end

/-! ## The body -/

theorem readChunkSize_goes (hs : p.state = .chunkSize) (hp : 0 ≤ p.remainingContent)
    (h : p.readChunkSize byte = .ok r) : Goes byte r := by
  refine lineEnd_goes h trivial hp fun r hr => ?_
  split at hr
  · cases hr
    exact .proceed hp
  obtain ⟨value, -, hr⟩ := bind_eq_ok hr
  split_ifs at hr
  cases hr
  refine .proceed ?_
  rw [Sound, show HttpParser.state _ = _ from hs]
  show 0 ≤ p.remainingContent * 16 + value
  omega

/-- **One byte** keeps what the state needs of the rest of the body. -/
theorem readByte_goes (hp : Sound p) (hb : p.state ≠ .body)
    (h : p.readByte parseUri byte = .ok r) : Goes byte r := by
  unfold readByte at h
  unfold Sound at hp
  split at h
  all_goals rename_i hs; rw [hs] at hp
  · exact readStart_goes hp h
  · exact readMethodOrResponseHttpVersion_goes hp hs h
  · exact readResponseHttpVersion_goes hp hs h
  · exact readRequestLineMethod_goes hp hs h
  · exact readRequestLineUri_goes hp hs h
  · exact readRequestLineHttpVersion_goes hp hs h
  · exact checked_goes h hp
  · exact readResponseLineStatusCode_goes hp hs h
  · exact readResponseLineReasonPhrase_goes hp hs h
  · exact checked_goes h hp
  · exact readHeaderStart_goes hp h
  · exact readHeaderField_goes hp hs h
  · exact readHeaderValueStart_goes hp hs h
  · exact readHeaderValue_goes hp hs h
  · exact checked_goes h hp
  · exact readHeaderValueFoldOrEnd_goes hp h
  · obtain ⟨-, -, h⟩ := bind_eq_ok h
    exact headersEnd_goes hp hs h
  · unfold readChunkSizeStartingCr at h
    split at h
    next hlf =>
      cases h
      exact ⟨hp, fun _ => ⟨hlf, trivial⟩⟩
    · exact checked_goes h hp
  · exact checked_goes h hp
  · exact readChunkSize_goes hs hp h
  · refine lineEnd_goes h trivial hp fun r hr => ?_
    cases hr
    exact .proceed (.of_state hs hp)
  · obtain ⟨-, -, h⟩ := bind_eq_ok h
    cases h
    refine .proceed ?_
    split_ifs with hps
    · exact .inr hps
    · exact hp
  · unfold readChunkedBodyDoneCr at h
    split at h
    next hlf =>
      cases h
      exact ⟨hp, fun _ => ⟨hlf, trivial⟩⟩
    · exact checked_goes h (.of_state hs hp)
  · exact checked_goes h (reset_sound (by rw [hs]; nofun))
  · exact absurd hs hb
  · exact hp.elim
  · cases h
    refine .proceed ?_
    rw [Sound, hs]
    trivial
  · exact hp.elim

/-- The LF that is seen again is not seen a third time. -/
theorem readByte_ending (hs : IsEnding p.state) (h : p.readByte parseUri byte = .ok r) :
    r.2 ≠ .again := by
  unfold readByte at h
  split at h
  all_goals rename_i hst; rw [hst] at hs
  case h_17 =>
    obtain ⟨-, -, h⟩ := bind_eq_ok h
    unfold headersEnd at h
    split at h
    · cases h
    obtain ⟨headers, -, h⟩ := bind_eq_ok h
    obtain ⟨incoming, -, rfl⟩ := map_eq_ok h
    unfold startBody
    dsimp only
    split_ifs <;> nofun
  case h_7 | h_10 | h_19 | h_22 | h_24 =>
    obtain ⟨-, -, h⟩ := bind_eq_ok h
    cases h
    nofun
  all_goals exact hs.elim

/-! ## Steps -/

/-- A byte that is not part of a block is read until it is not seen again. -/
def settle (parseUri : List UInt8 → Option Uri) (p : HttpParser Uri) (byte : UInt8) :
    Except HttpError (HttpParser Uri) :=
  match p.readByte parseUri byte with
  | .error e => .error e
  | .ok (p, .again) => (p.readByte parseUri byte).map Prod.fst
  | .ok (p, _) => .ok p

/-- The parser reads one byte. -/
def step (parseUri : List UInt8 → Option Uri) (p : HttpParser Uri) (byte : UInt8) :
    Except HttpError (HttpParser Uri) :=
  if p.state = .upgraded then .ok { p with unparsed := p.unparsed ++ [byte] }
  else if p.state = .body then .ok (p.readBody [byte])
  else p.settle parseUri byte

theorem isEnding_ne {st : State} (h : IsEnding st) :
    st ≠ .body ∧ st ≠ .upgraded ∧ st ≠ .failure := by
  refine ⟨?_, ?_, ?_⟩ <;> rintro rfl <;> exact h

theorem settle_sound (hp : Sound p) (hb : p.state ≠ .body)
    (h : p.settle parseUri byte = .ok p') : Sound p' := by
  unfold settle at h
  split at h
  · cases h
  next q hrd =>
    obtain ⟨hsn, ha⟩ := readByte_goes hp hb hrd
    obtain ⟨r, hr, rfl⟩ := map_eq_ok h
    exact (readByte_goes hsn (isEnding_ne (ha rfl).2).1 hr).1
  next q next hne hrd =>
    cases h
    exact (readByte_goes hp hb hrd).1

theorem readBody_sound (hs : p.state = .body)
    (hp : p.remainingContent = -1 ∨ (data.length : Int) ≤ p.remainingContent) : Sound
    (p.readBody data) := by
  unfold readBody
  dsimp only
  split_ifs with hz hc
  · exact Int.le_of_eq hz.symm
  · refine reset_sound ?_
    show p.state ≠ _
    rw [hs]
    nofun
  · rw [Sound, show (p.receive data).state = _ from hs]
    simp only [receive] at hz ⊢
    split_ifs at hz ⊢ with ho
    · exact .inr (by omega)
    · exact .inl (not_not.mp ho)

/-- **One step** keeps what the state needs of the rest of the body. -/
theorem step_sound (hp : Sound p) (h : p.step parseUri byte = .ok p') : Sound p' := by
  unfold step at h
  split_ifs at h with hu hb
  · cases h
    exact hp
  · cases h
    refine readBody_sound hb ?_
    rw [Sound, hb] at hp
    rcases hp with hp | hp
    · exact .inl hp
    · exact .inr (by simp only [length_singleton]; omega)
  · exact settle_sound hp hb h

theorem foldlM_step_sound (hp : Sound p) (h : bs.foldlM (step parseUri) p = .ok p') : Sound p' :=
  foldlM_keeps (fun _ hq hst => step_sound hq hst) hp h

theorem foldlM_step_upgraded (hs : p.state = .upgraded) (bs : List UInt8) :
    bs.foldlM (step parseUri) p = .ok { p with unparsed := p.unparsed ++ bs } := by
  induction bs generalizing p with
  | nil =>
    rw [List.append_nil]
    rfl
  | cons b bs ih =>
    rw [foldlM_cons, step, if_pos hs]
    show List.foldlM _ _ bs = _
    rw [ih (by exact hs)]
    simp

/-! ## Blocks -/

theorem readBody_singleton {b : UInt8} (hp : p.remainingContent = -1 ∨ 1 < p.remainingContent) :
    p.readBody [b] = p.receive [b] := by
  unfold readBody
  rw [if_neg]
  simp only [receive, length_singleton]
  split_ifs <;> omega

theorem receive_receive (xs ys : List UInt8)
    (hp : p.remainingContent = -1 ∨ (xs.length : Int) ≤ p.remainingContent) :
    (p.receive xs).receive ys = p.receive (xs ++ ys) := by
  have hr : ((p.receive xs).receive ys).remainingContent =
      (p.receive (xs ++ ys)).remainingContent := by
    simp only [receive, length_append]
    split_ifs <;> omega
  have hi : ((p.receive xs).receive ys).incoming = (p.receive (xs ++ ys)).incoming := by
    simp only [receive, Option.map_map, Function.comp_def, append_assoc]
  calc (p.receive xs).receive ys
      = { p with
          incoming := ((p.receive xs).receive ys).incoming
          remainingContent := ((p.receive xs).receive ys).remainingContent } := rfl
    _ = p.receive (xs ++ ys) := by
      rw [hr, hi]
      rfl

theorem readBody_cons {b : UInt8} (data : List UInt8)
    (hp : p.remainingContent = -1 ∨ 1 < p.remainingContent) :
    (p.receive [b]).readBody data = p.readBody (b :: data) := by
  unfold readBody
  rw [receive_receive [b] data (by rw [length_singleton]; omega)]
  rfl

/-- **A block of a body** is as good as its bytes. -/
theorem foldlM_step_block (parseUri : List UInt8 → Option Uri) (hs : p.state = .body)
    (hne : data ≠ []) (hp : p.remainingContent = -1 ∨ (data.length : Int) ≤ p.remainingContent) :
    data.foldlM (step parseUri) p = .ok (p.readBody data) := by
  induction data generalizing p with
  | nil => exact absurd rfl hne
  | cons b data ih =>
    have hst : p.step parseUri b = .ok (p.readBody [b]) := by
      rw [step, if_neg (by rw [hs]; nofun), if_pos hs]
    rw [foldlM_cons, hst]
    show List.foldlM _ (p.readBody [b]) data = _
    by_cases hd : data = []
    · rw [hd]
      rfl
    have hps : 0 < data.length := length_pos_iff.mpr hd
    rw [length_cons] at hp
    have hm : p.remainingContent = -1 ∨ 1 < p.remainingContent := by omega
    have hl : (p.receive [b]).remainingContent = -1 ∨
        (data.length : Int) ≤ (p.receive [b]).remainingContent := by
      simp only [receive, length_singleton]
      split_ifs <;> omega
    rw [readBody_singleton hm, ih (by exact hs) hd hl, readBody_cons data hm]

/-! ## The loop -/

/-- What a loop over a buffer gives is what the steps over its bytes give. -/
def Follows (parseUri : List UInt8 → Option Uri) (p : HttpParser Uri) (buf : List UInt8) :
    Except HttpError (HttpParser Uri × List UInt8) → Prop
  | .error e => buf.foldlM (step parseUri) p = .error e
  | .ok (q, rest) =>
    Sound q ∧ buf.foldlM (step parseUri) p = rest.foldlM (step parseUri) q ∧
      (rest = [] ∨ q.state = .upgraded ∨ rest.length < buf.length)

theorem Follows.trans {res : Except HttpError (HttpParser Uri × List UInt8)}
    (hl : ys.length ≤ xs.length) (h : xs.foldlM (step parseUri) p = ys.foldlM (step parseUri) p')
    (hf : Follows parseUri p' ys res) : Follows parseUri p xs res := by
  match res, hf with
  | .error e, hf => exact h.trans hf
  | .ok (q, rest), ⟨hq, hrn, hr⟩ =>
    exact ⟨hq, h.trans hrn, hr.imp_right (.imp_right fun hlt => Nat.lt_of_lt_of_le hlt hl)⟩

theorem Sound.ne_failure (hp : Sound p) : p.state ≠ .failure ∧ p.state ≠ .closed := by
  constructor
  all_goals
    intro hs
    rw [Sound, hs] at hp
    exact hp

theorem foldlM_step_cons_ok (h : p.step parseUri byte = .ok p') :
    (byte :: rest).foldlM (step parseUri) p = rest.foldlM (step parseUri) p' := by
  rw [foldlM_cons, h]
  rfl

theorem foldlM_step_cons_error {e : HttpError} (h : p.step parseUri byte = .error e) :
    (byte :: rest).foldlM (step parseUri) p = .error e := by
  rw [foldlM_cons, h]
  rfl

theorem dataAvailable_spec (byte : UInt8) (hp : Sound p) (hs : p.state = .body)
    (rest : List UInt8) :
    0 < p.dataAvailable (byte :: rest) ∧ p.dataAvailable (byte :: rest) ≤ rest.length + 1 ∧
      (p.remainingContent = -1 ∨ (p.dataAvailable (byte :: rest) : Int) ≤ p.remainingContent) := by
  rw [Sound, hs] at hp
  have hp' : p.remainingContent = -1 ∨ 0 < p.remainingContent := hp
  unfold dataAvailable
  rw [length_cons]
  split_ifs with h
  · omega
  · omega

/-- The second look at an LF. -/
theorem doParseLoop_again (hs : IsEnding p.state) :
    doParseLoop parseUri (fuel + 1) p (byte :: rest) =
      match p.readByte parseUri byte with
      | .error e => .error e
      | .ok (q, .leave) => .ok (q, rest)
      | .ok (q, _) => doParseLoop parseUri fuel q rest := by
  obtain ⟨hb, hu, hf⟩ := isEnding_ne hs
  rw [doParseLoop, if_neg (not_or.mpr ⟨hf, hu⟩), if_neg hb]
  cases hrd : p.readByte parseUri byte with
  | error e => rfl
  | ok r =>
    obtain ⟨q, next⟩ := r
    have hne := readByte_ending hs hrd
    cases next with
    | proceed | leave => rfl
    | again => exact absurd rfl hne

/-- **The loop of `_doParse`**. -/
theorem doParseLoop_follows (parseUri : List UInt8 → Option Uri)
    (hp : Sound p) (hf : 2 * buf.length ≤ fuel) :
    Follows parseUri p buf (doParseLoop parseUri fuel p buf) := by
  induction fuel using Nat.strong_induction_on generalizing p buf with
  | _ fuel ih =>
  match buf with
  | [] =>
    have hnl : doParseLoop parseUri fuel p [] = .ok (p, []) := by cases fuel <;> rfl
    rw [hnl]
    exact ⟨hp, rfl, .inl rfl⟩
  | byte :: rest =>
    rw [length_cons] at hf
    obtain ⟨fuel, rfl⟩ : ∃ n, fuel = n + 2 := ⟨fuel - 2, by omega⟩
    rw [doParseLoop]
    by_cases hu : p.state = .upgraded
    · rw [if_pos (.inr hu)]
      exact ⟨hp, rfl, .inr (.inl hu)⟩
    rw [if_neg (not_or.mpr ⟨hp.ne_failure.1, hu⟩)]
    by_cases hb : p.state = .body
    · rw [if_pos hb]
      obtain ⟨hps, hle, hrm⟩ := dataAvailable_spec byte hp hb rest
      generalize p.dataAvailable (byte :: rest) = available at hps hle hrm
      have ht : ((byte :: rest).take available).length = available := by
        rw [length_take, length_cons, Nat.min_eq_left hle]
      have hd : ((byte :: rest).drop available).length = rest.length + 1 - available := by
        rw [length_drop, length_cons]
      rw [← ht] at hrm
      have hbl := foldlM_step_block parseUri hb
        (ne_nil_of_length_pos (by rw [ht]; exact hps)) hrm
      refine Follows.trans (by rw [hd, length_cons]; omega) ?_
        (ih (fuel + 1) (by omega) (readBody_sound hb hrm) (by rw [hd]; omega))
      rw [← foldlM_append_of_ok hbl, take_append_drop]
    rw [if_neg hb]
    have hst : p.step parseUri byte = p.settle parseUri byte := by
      rw [step, if_neg hu, if_neg hb]
    have hl {q : HttpParser Uri} (hq : p.step parseUri byte = .ok q) :
        Follows parseUri p (byte :: rest) (.ok (q, rest)) :=
      ⟨step_sound hp hq, foldlM_step_cons_ok hq, .inr (.inr (by rw [length_cons]; omega))⟩
    have hpr {q : HttpParser Uri} {n : Nat} (hn : n = fuel ∨ n = fuel + 1)
        (hq : p.step parseUri byte = .ok q) :
        Follows parseUri p (byte :: rest) (doParseLoop parseUri n q rest) :=
      .trans (by rw [length_cons]; omega) (foldlM_step_cons_ok hq)
        (ih n (by omega) (step_sound hp hq) (by omega))
    cases hrd : p.readByte parseUri byte with
    | error e => exact foldlM_step_cons_error (by rw [hst, settle, hrd])
    | ok r =>
      obtain ⟨q, next⟩ := r
      cases next with
      | proceed => exact hpr (.inr rfl) (by rw [hst, settle, hrd])
      | leave => exact hl (by rw [hst, settle, hrd])
      | again =>
        have hen := ((readByte_goes hp hb hrd).2 rfl).2
        dsimp only
        rw [doParseLoop_again hen]
        have hsl : p.step parseUri byte = (q.readByte parseUri byte).map Prod.fst := by
          rw [hst, settle, hrd]
        cases ha : q.readByte parseUri byte with
        | error e => exact foldlM_step_cons_error (by rw [hsl, ha]; rfl)
        | ok r =>
          obtain ⟨q', next⟩ := r
          have hq' : p.step parseUri byte = .ok q' := by rw [hsl, ha]; rfl
          cases next with
          | proceed | again => exact hpr (.inl rfl) hq'
          | leave => exact hl hq'

/-! ## Buffers -/

theorem parse_eq (hp : Sound p) (hf : buf.length < fuel) :
    parse parseUri fuel p buf = buf.foldlM (step parseUri) p := by
  induction fuel generalizing p buf with
  | zero => omega
  | succ fuel ih =>
    have hl := doParseLoop_follows parseUri hp (Nat.le_refl (2 * buf.length))
    rw [parse, doParse, if_neg hp.ne_failure.2, if_neg hp.ne_failure.1]
    cases hr : doParseLoop parseUri (2 * buf.length) p buf with
    | error e =>
      rw [hr] at hl
      exact hl.symm
    | ok result =>
      obtain ⟨q, rest⟩ := result
      rw [hr] at hl
      obtain ⟨hq, hrn, hrs⟩ := hl
      dsimp only
      rw [hrn]
      by_cases hu : q.state = .upgraded
      · rw [if_pos hu, foldlM_step_upgraded hu]
      rw [if_neg hu]
      by_cases hn : rest = []
      · rw [if_pos hn, hn]
        rfl
      rw [if_neg hn]
      have hlt : rest.length < buf.length :=
        (hrs.resolve_left hn).resolve_left hu
      exact ih hq (by omega)

/-- **The buffers of a connection** are read byte by byte. -/
theorem onDataAll_eq {bfs : List (List UInt8)} (hp : Sound p) :
    onDataAll parseUri p bfs = bfs.flatten.foldlM (step parseUri) p := by
  induction bfs generalizing p with
  | nil => rfl
  | cons buf bfs ih =>
    rw [onDataAll, foldlM_cons, flatten_cons, foldlM_append, onData,
      parse_eq hp (Nat.lt_succ_self _)]
    cases hr : buf.foldlM (step parseUri) p with
    | error e => rfl
    | ok q => exact ih (foldlM_step_sound hp hr)

/-! ## Ways to cut the stream -/

/-- The first `n` bytes of the stream, in the buffers that it is cut into. -/
def firstBytes : Nat → List (List UInt8) → List (List UInt8)
  | _, [] => []
  | n, buf :: buffers => buf.take n :: firstBytes (n - buf.length) buffers

theorem flatten_firstBytes (n : Nat) (bfs : List (List UInt8)) :
    (firstBytes n bfs).flatten = bfs.flatten.take n := by
  induction bfs generalizing n with
  | nil => simp [firstBytes]
  | cons buf bfs ih => simp [firstBytes, ih, take_append]

/-- The parser fails at the byte with the index `n`, and is `q` before that byte. -/
def FailsAt (parseUri : List UInt8 → Option Uri) (p : HttpParser Uri) (buffers : List (List UInt8))
    (n : Nat) (q : HttpParser Uri) (e : HttpError) : Prop :=
  onDataAll parseUri p (firstBytes n buffers) = .ok q ∧
    onDataAll parseUri p (firstBytes (n + 1) buffers) = .error e

/-- **However the stream is cut**, a new parser reports the same messages, after all of its bytes and
after its first ones, and fails at the same byte. -/
theorem onDataAll_cut (parseUri : List UInt8 → Option Uri)
    (requestParser connectMethod noMessageBody : Bool) {buffers buffers' : List (List UInt8)}
    (h : buffers.flatten = buffers'.flatten) :
    let p : HttpParser Uri := { requestParser, connectMethod, noMessageBody }
    onDataAll parseUri p buffers = onDataAll parseUri p buffers' ∧
      (∀ n, onDataAll parseUri p (firstBytes n buffers) =
        onDataAll parseUri p (firstBytes n buffers')) ∧
      ∀ e, onDataAll parseUri p buffers = .error e →
        ∃ n q, FailsAt parseUri p buffers n q e ∧ FailsAt parseUri p buffers' n q e := by
  intro p
  have hp : Sound p := rfl
  simp only [FailsAt, onDataAll_eq hp, flatten_firstBytes, h, and_self, implies_true, true_and]
  exact fun e he => foldlM_eq_error he

/-- A request with a body of three bytes, which start at 38. -/
def postMessage : List UInt8 :=
  "POST / HTTP/1.1\r\nContent-Length: 3\r\n\r\nabc".toList.map fun c => c.toNat.toUInt8

theorem onDataAll_cut_body :
    onDataAll (fun _ => some ()) { requestParser := true } [postMessage] =
      onDataAll (fun _ => some ()) { requestParser := true }
        [postMessage.take 39, postMessage.drop 39] :=
  (onDataAll_cut _ true false false (by simp)).1

end Http.HttpParser
