import DartSdk.Http.Proof.WebSocket
import DartSdk.Http.WebSocketOutgoing

/-!
# What is sent and what is received

* `add_given_iff`: **the given list is not changed**, unless a client masks text in a `Uint8List`.
* `add_delivers`: **the other side is told the message**, however the bytes are cut into chunks.
* `session_delivers`: so it is for any number of messages, one after the other.
-/

namespace Http.WebSocketOutgoingTransformer

open WebSocketFrames WebSocketProtocolTransformer

variable {serverSide compressed : Bool} {deflate : Option (List UInt8 → List Int)}
  {key : Vector UInt8 4} {opcode : Int} {data : Option IntList} {l : IntList} {m : OutgoingMessage}

/-! ## Masking -/

theorem maskSlice_append {u i : Nat} {xs ys : List UInt8} (h : xs.length = i) :
    maskSlice key u i ys.length (xs ++ ys) = xs ++ maskFrom key u ys := by
  subst h
  rw [maskSlice, List.take_left, List.drop_left, List.take_length, ← List.length_append,
    List.drop_length, List.append_nil]

theorem maskList_eq {off : Nat} (bs : List UInt8) (h : 16 ≤ bs.length → off % 16 = 0) :
    maskList key off bs = .ok (maskFrom key 0 bs) := by
  obtain ⟨xs, ys, hb, hxs⟩ : ∃ xs ys, bs = xs ++ ys ∧ xs.length = bs.length / 16 * 16 :=
    ⟨_, _, (List.take_append_drop _ bs).symm, List.length_take_of_le (Nat.div_mul_le_self _ _)⟩
  have ha : ¬(bs.length / 16 > 0 ∧ off % 16 ≠ 0) := by omega
  simp only [maskList, ha, if_false, ← hxs]
  rw [hb, List.take_left, List.drop_left, xorLanes_eq key 0 xs (by omega), List.length_append,
    length_maskFrom, Nat.add_sub_cancel_left, unmaskBytes_eq _ _ _ _ _ (by simp),
    maskSlice_append (length_maskFrom ..), maskFrom_append, Nat.zero_add]

/-- A list of 16 bytes or more that is not aligned cannot be viewed as a list of blocks. -/
theorem maskList_unaligned {off : Nat} {bs : List UInt8} (hl : 16 ≤ bs.length) (h : off % 16 ≠ 0) :
    maskList key off bs = .error .rangeError :=
  if_pos ⟨Nat.div_pos hl (by decide), h⟩

theorem maskFrom_eq_self_iff (i : Nat) (bs : List UInt8) :
    maskFrom key i bs = bs ↔ ∀ j < bs.length, keyByte key (i + j) = 0 := by
  induction bs generalizing i with
  | nil => simp [maskFrom]
  | cons b bs ih =>
    rw [maskFrom, List.cons.injEq, ih, List.length_cons, Nat.forall_lt_succ_left]
    refine and_congr ⟨fun h => ?_, fun h => ?_⟩ (by simp only [Nat.add_assoc, Nat.add_comm 1])
    · simpa [← UInt8.xor_assoc] using congrArg (b ^^^ ·) h
    · rw [Nat.add_zero] at h
      rw [h, UInt8.xor_zero]

/-! ## The given list -/

/-- The list in a message. -/
def given : OutgoingMessage → Option IntList
  | .pong payload | .ping payload => payload
  | .bytes list | .encodedString list => some list
  | .string _ | .null | .other => none

theorem createFrame_snd
    (h : serverSide = true ∨ opcode ≠ WebSocketOpcode.TEXT ∨ ∀ l ∈ data, l.isUint8List = false) :
    (createFrame opcode data serverSide compressed key).2 = data := by
  cases data with
  | none => cases serverSide <;> rfl
  | some l =>
    cases serverSide with
    | true => rfl
    | false =>
      have hp : ¬(opcode = WebSocketOpcode.TEXT ∧ l.isUint8List = true) := by
        simpa [← imp_iff_not_or] using h
      simp only [createFrame, Bool.not_false, if_neg hp]
      split <;> rfl

theorem addData_snd (h : serverSide = true ∨ deflate.isSome ∨ opcode ≠ WebSocketOpcode.TEXT ∨
      l.isUint8List = false) : (addData serverSide deflate key opcode l).2 = some l := by
  cases deflate with
  | none => exact createFrame_snd (by simpa using h)
  | some process =>
    unfold addData
    dsimp only
    split <;> rfl

/-- A client masks the text in the given list, and the masking changes it: the list is short or
aligned, and one of its bytes meets a byte of the key that is not zero. -/
def MasksGiven (serverSide : Bool) (deflate : Option (List UInt8 → List Int))
    (key : Vector UInt8 4) : OutgoingMessage → Prop
  | .encodedString (.uint8List bytes offset) =>
    serverSide = false ∧ deflate.isNone ∧ (16 ≤ bytes.length → offset % 16 = 0) ∧
      ∃ i < bytes.length, keyByte key i ≠ 0
  | _ => False

theorem createFrame_text_snd (bytes : List UInt8) (offset : Nat) :
    (createFrame WebSocketOpcode.TEXT (some (.uint8List bytes offset)) false compressed key).2 =
        some (.uint8List bytes offset) ↔
      ¬((16 ≤ bytes.length → offset % 16 = 0) ∧ ∃ i < bytes.length, keyByte key i ≠ 0) := by
  by_cases ha : 16 ≤ bytes.length → offset % 16 = 0
  · have hc : (createFrame WebSocketOpcode.TEXT (some (.uint8List bytes offset)) false compressed
        key).2 = some (.uint8List (maskFrom key 0 bytes) offset) := by
      simp [createFrame, IntList.isUint8List, IntList.offsetInBytes, IntList.toUint8List,
        Fallible.ok_bind, maskList_eq bytes ha]
    rw [hc, Option.some.injEq, IntList.uint8List.injEq, and_iff_left rfl, maskFrom_eq_self_iff,
      and_iff_right ha]
    simp only [Nat.zero_add, not_exists, not_and, not_not]
  · have hu : maskList key offset bytes = .error .rangeError := by
      obtain ⟨hl, ho⟩ := Classical.not_imp.mp ha
      exact maskList_unaligned hl ho
    simp [createFrame, IntList.isUint8List, IntList.offsetInBytes, IntList.toUint8List,
      Fallible.ok_bind, hu, ha]

/-- **The list in a message is not changed**, unless a client masks text in a `Uint8List`. -/
theorem add_given_iff (serverSide : Bool) (deflate : Option (List UInt8 → List Int))
    (key : Vector UInt8 4) (m : OutgoingMessage) :
    (add serverSide deflate key m).2 = given m ↔ ¬MasksGiven serverSide deflate key m := by
  cases m with
  | pong payload | ping payload =>
    exact iff_of_true (createFrame_snd (.inr (.inl (by decide)))) not_false
  | string text =>
    refine iff_of_true ?_ not_false
    unfold add
    dsimp only
    split <;> rfl
  | bytes message => exact iff_of_true (addData_snd (.inr (.inr (.inl (by decide))))) not_false
  | encodedString list =>
    cases list with
    | list elements => exact iff_of_true (addData_snd (.inr (.inr (.inr rfl)))) not_false
    | uint8List bytes offset =>
      cases serverSide with
      | true => exact iff_of_true (addData_snd (.inl rfl)) fun h => Bool.noConfusion h.1
      | false =>
        cases deflate with
        | some process => exact iff_of_true (addData_snd (.inr (.inl rfl))) (by simp [MasksGiven])
        | none =>
          simp only [MasksGiven, Option.isNone_none, true_and]
          exact createFrame_text_snd bytes offset
  | null => exact iff_of_true (createFrame_snd (.inr (.inr (by simp)))) not_false
  | other => exact iff_of_true rfl not_false

/-- A client masks the bytes that were given to `addUtf8Text`. -/
theorem add_masks : given (.encodedString (.uint8List [0x61] 0)) = some (.uint8List [0x61] 0) ∧
    (add false none #v[1, 2, 3, 4] (.encodedString (.uint8List [0x61] 0))).2 =
      some (.uint8List [0x60] 0) := by
  decide

/-! ## The bytes of a frame -/

theorem length_bigEndian (n k : Nat) : (List.range k).map (fun i =>
    UInt8.ofNat (n >>> ((k - 1 - i) * 8) &&& 0xFF)) = bigEndian n k := by
  induction k with
  | zero => rfl
  | succ k ih =>
    rw [List.range_succ_eq_map, List.map_cons, List.map_map, bigEndian, ← ih]
    congr 1
    · rw [Bits.shiftRight, show 0xFF = 2 ^ 8 - 1 from rfl, Bits.and_low, Nat.mul_comm, Nat.pow_mul]
      rfl
    · simp only [Function.comp_def, Nat.add_sub_cancel, Nat.sub_sub, Nat.add_comm 1]

theorem frameHeader_eq (op : Opcode) (n : Nat) (key : Option (Vector UInt8 4)) :
    frameHeader op.code n false key = UInt8.ofNat (0x80 + op.code) ::
      (lengthBytes key.isSome n ++ key.elim [] Vector.toList) := by
  have hc : FIN ||| 0 ||| (UInt8.ofNat (op.code : Int).toNat &&& OPCODE) =
      UInt8.ofNat (0x80 + op.code) := by
    cases op <;> rfl
  have hsh : ∀ n : Fin 126, UInt8.ofNat n ||| 0x80 = 0x80 + UInt8.ofNat n := by decide
  simp only [frameHeader, Bool.false_eq_true, if_false, hc, length_bigEndian, lengthBytes]
  by_cases hl : n > 65535
  · rw [if_pos hl, if_neg (by omega), if_neg (by omega)]
    cases key <;> (simp; try rfl)
  rw [if_neg hl]
  by_cases hm : n > 125
  · rw [if_pos hm, if_neg (by omega), if_pos (by omega)]
    cases key <;> (simp; try rfl)
  · rw [if_neg hm, if_pos (by omega)]
    have hmd : n % 256 = n := Nat.mod_eq_of_lt (by omega)
    cases key <;> simp [bigEndian, hmd, hsh ⟨n, by omega⟩]

/-- The list has these bytes as its elements. -/
inductive HasBytes : IntList → List UInt8 → Prop where
  | uint8List (bytes : List UInt8) (offsetInBytes : Nat) :
    HasBytes (.uint8List bytes offsetInBytes) bytes
  | list (bytes : List UInt8) : HasBytes (.list (bytes.map fun b => (b.toNat : Int))) bytes

variable {payload : List UInt8} {kind : Kind}

theorem HasBytes.length_eq (h : HasBytes l payload) : l.length = payload.length := by
  cases h with
  | uint8List => rfl
  | list => exact List.length_map _

theorem HasBytes.toUint8List (h : HasBytes l payload) : l.toUint8List = .ok payload := by
  cases h with
  | uint8List => rfl
  | list =>
    unfold IntList.toUint8List
    dsimp only
    generalize 0 = start
    induction payload generalizing start with
    | nil => rfl
    | cons b bytes ih =>
      have hb := b.toNat_lt
      rw [List.map_cons, List.zipIdx_cons, List.mapM_cons, ih, if_neg (by omega)]
      simp [Fallible.ok_bind]

/-- The frame for a message. -/
def frameOf (serverSide : Bool) (key : Vector UInt8 4) (kind : Kind) (payload : List UInt8)
    (h : payload.length < 2 ^ 63) : Frame where
  fin := true
  opcode := kind.opcode
  maskingKey := if serverSide then none else some key
  payload := payload
  length_lt := h
  control_le := by cases kind <;> nofun
  control_fin _ := rfl

theorem createFrame_fst (hl : HasBytes l payload)
    (ha : kind = .text → l.offsetInBytes % 16 = 0) (h : payload.length < 2 ^ 63) :
    ∃ header data bytes,
      (createFrame kind.opcode.code (some l) serverSide false key).1 = .ok (header, some data) ∧
      HasBytes data bytes ∧ header ++ bytes = (frameOf serverSide key kind payload h).bytes := by
  cases serverSide with
  | true =>
    refine ⟨_, l, payload, rfl, hl, ?_⟩
    simp [hl.length_eq, frameHeader_eq, Frame.bytes, frameOf, maskedPayload]
  | false =>
    have ho : (if (kind.opcode.code : Int) = WebSocketOpcode.TEXT ∧ l.isUint8List = true then
        l.offsetInBytes else 0) % 16 = 0 := by
      split
      next h =>
        cases kind with
        | text => exact ha rfl
        | binary => cases h.1
      next => rfl
    simp only [createFrame, Bool.not_false, hl.toUint8List, Fallible.ok_bind,
      maskList_eq _ fun _ => ho]
    refine ⟨_, _, _, rfl, .uint8List _ _, ?_⟩
    simp [hl.length_eq, frameHeader_eq, Frame.bytes, frameOf, maskedPayload]

/-- The payload of the frame for a message. -/
inductive Carries : OutgoingMessage → Kind → List UInt8 → Prop where
  | string (cs : List Char) : Carries (.string (Utf16.encode cs)) .text (Utf8.encode cs)
  | bytes {l : IntList} {payload : List UInt8} (hl : HasBytes l payload) :
    Carries (.bytes l) .binary payload
  | encodedString {l : IntList} {payload : List UInt8} (hl : HasBytes l payload)
    (haligned : l.offsetInBytes % 16 = 0) : Carries (.encodedString l) .text payload

theorem Carries.add_fst (serverSide : Bool) (key : Vector UInt8 4) (h : Carries m kind payload) :
    ∃ l, HasBytes l payload ∧ (kind = .text → l.offsetInBytes % 16 = 0) ∧
      (add serverSide none key m).1 =
        (createFrame kind.opcode.code (some l) serverSide false key).1 := by
  cases h with
  | string cs =>
    refine ⟨_, .uint8List _ 0, fun _ => rfl, ?_⟩
    have hu : Utf16.toUtf8 (Utf16.encode cs) = Utf8.encode cs := by
      rw [Utf16.toUtf8, Utf16.decode_encode, Utf8.encode]
    rw [add, Convert.Proof.utf8Convert_eq, hu]
    rfl
  | bytes hl => exact ⟨_, hl, by simp, rfl⟩
  | encodedString hl ha => exact ⟨_, hl, fun _ => ha, rfl⟩

/-- The session after the frame for a message. -/
theorem foldlM_frameOf {msg : Message} (hm : kind.Says payload msg)
    (hb : ¬beginsWithBom msg) (h : payload.length < 2 ^ 63) :
    [frameOf serverSide key kind payload h].foldlM Session.frame {} =
      .ok { events := [eventOf msg] } := by
  obtain ⟨event, he, hl⟩ :=
    Session.message_last (s := {}) (f := frameOf serverSide key kind payload h) rfl hm
  rw [List.foldlM_cons, Session.frame_kind _ rfl, hl, he.mpr hb]
  rfl

/-- **The other side is told the message**, however the bytes are cut into chunks. -/
theorem add_delivers (serverSide : Bool) (deflate : Option (List UInt8 → List UInt8))
    (key : Vector UInt8 4) {message : Message} (hm : Carries m kind payload)
    (hs : kind.Says payload message) (hbom : ¬beginsWithBom message)
    (h : payload.length < 2 ^ 63) :
    ∃ header data bytes, (add serverSide none key m).1 = .ok (header, some data) ∧
      HasBytes data bytes ∧ ∀ chunks : List Chunk, chunks.flatMap Chunk.bytes = header ++ bytes →
        (serverSide = false → ∀ c ∈ chunks, c.offsetInBytes % 16 = 0) →
        Receives (create (!serverSide) deflate) chunks [eventOf message] := by
  obtain ⟨l, hl, ha, had⟩ := hm.add_fst serverSide key
  obtain ⟨header, data, bytes, hf, hd, hb⟩ := createFrame_fst hl ha h
  refine ⟨header, data, bytes, had.trans hf, hd, fun chunks hch hal => ?_⟩
  have hr := ready_create (!serverSide) deflate
  have htl : Says none [frameOf serverSide key kind payload h] [message] :=
    .only rfl rfl hs (.nil none)
  have hst := foldlM_step_frames htl hr ⟨rfl, rfl⟩ (by cases serverSide <;> simp [frameOf, create])
  rw [foldlM_frameOf hs hbom] at hst
  obtain ⟨t', ht', hr'⟩ := hst
  rw [List.flatMap_singleton, ← hb, ← hch] at ht'
  -- The transformer is open at the end, so empty chunks do no harm.
  have ho : t'.IsOpen := by simp [WebSocketProtocolTransformer.IsOpen, hr'.state]
  have hfl := addAll_follows (by simpa [create] using hal) (.inr ⟨t', ht', ho⟩) (.refl _) hr.inv
  rw [ht'] at hfl
  obtain ⟨t, ht, hlk⟩ := hfl
  refine ⟨t, ht, ?_⟩
  rw [hlk.eq_withIndex]
  exact hr'.events

/-- Forty characters, of which the first 32 are masked in two blocks. -/
theorem add_delivers_text : ∃ header data bytes,
    (add false none #v[1, 2, 3, 4] (.string (Utf16.encode (.replicate 40 'a')))).1 =
        .ok (header, some data) ∧
      HasBytes data bytes ∧ ∀ chunks : List Chunk, chunks.flatMap Chunk.bytes = header ++ bytes →
        (false = false → ∀ c ∈ chunks, c.offsetInBytes % 16 = 0) →
        Receives (create (!false) none) chunks [eventOf (.text (.replicate 40 'a'))] :=
  add_delivers false none #v[1, 2, 3, 4] (.string (.replicate 40 'a')) (.text (.replicate 40 'a'))
    (by decide) (by decide)

/-! ## Sessions -/

/-- A message that is sent and the masking key of its frame. The message is its content when it is
given: `createFrame` may mask the given list afterwards, so a list that is given again is another
message. -/
structure Sent where
  given : OutgoingMessage
  key : Vector UInt8 4
  kind : Kind
  payload : List UInt8
  message : Message
  carries : Carries given kind payload
  meaning : kind.Says payload message
  not_bom : ¬beginsWithBom message
  length_lt : payload.length < 2 ^ 63

/-- The bytes that the sink gets, one message after the other. -/
def sendAll (serverSide : Bool) : List Sent → Except OutgoingError (List UInt8)
  | [] => .ok []
  | x :: xs => do
    let (header, data) ← (add serverSide none x.key x.given).1
    return header ++ (← data.elim (.ok []) IntList.toUint8List) ++ (← sendAll serverSide xs)

theorem sendAll_frames (serverSide : Bool) (xs : List Sent) :
    ∃ fs, sendAll serverSide xs = .ok (fs.flatMap Frame.bytes) ∧ Says none fs (xs.map Sent.message) ∧
      Undisturbed [] fs ∧ ∀ f ∈ fs, f.maskingKey.isSome = !serverSide := by
  induction xs with
  | nil => exact ⟨[], rfl, .nil none, trivial, by simp⟩
  | cons x xs ih =>
    obtain ⟨fs, hs, hsy, hu, hk⟩ := ih
    obtain ⟨l, hl, ha, had⟩ := x.carries.add_fst serverSide x.key
    obtain ⟨header, data, bytes, hf, hd, hb⟩ := createFrame_fst hl ha x.length_lt
    refine ⟨frameOf serverSide x.key x.kind x.payload x.length_lt :: fs, ?_,
      .only rfl rfl x.meaning hsy, ?_, List.forall_mem_cons.mpr ⟨?_, hk⟩⟩
    · simp only [sendAll, had.trans hf, hs, Option.elim_some, hd.toUint8List, Fallible.ok_bind]
      rw [hb]
      rfl
    · exact (if_neg (Bool.not_eq_true _ ▸ isControl_kind x.kind)).mpr hu
    · cases serverSide <;> rfl

/-- **A session**: the other side is told all messages in the order in which they were sent, however
their bytes are cut into chunks. -/
theorem session_delivers (serverSide : Bool) (deflate : Option (List UInt8 → List UInt8))
    (xs : List Sent) : ∃ out, sendAll serverSide xs = .ok out ∧ ∀ chunks : List Chunk,
      chunks.flatMap Chunk.bytes = out → (∀ c ∈ chunks, c.bytes ≠ []) →
      (serverSide = false → ∀ c ∈ chunks, c.offsetInBytes % 16 = 0) →
      Receives (create (!serverSide) deflate) chunks (xs.map (eventOf ·.message)) := by
  obtain ⟨fs, hs, hsy, hu, hk⟩ := sendAll_frames serverSide xs
  refine ⟨_, hs, fun chunks hb hne ha => ?_⟩
  have ht := (tells_iff (s := {}) hsy rfl rfl).2
    ⟨hu, List.forall_mem_map.mpr fun x _ => x.not_bom⟩
  rw [List.map_map] at ht
  exact (receives_iff_tells deflate hsy hk hb hne (by simpa using ha) _).2 ht

/-- Two characters as text and one byte as data. -/
example : sendAll false
    [{ given := .string (Utf16.encode ['h', 'i']), key := #v[1, 2, 3, 4], kind := .text,
       payload := Utf8.encode ['h', 'i'], message := .text ['h', 'i'], carries := .string _,
       meaning := .text _, not_bom := by decide, length_lt := by decide },
     { given := .bytes (.list [7]), key := #v[5, 6, 7, 8], kind := .binary, payload := [7],
       message := .binary [7], carries := .bytes (.list [7]), meaning := .binary _,
       not_bom := by decide, length_lt := by decide }] =
    .ok [0x81, 0x82, 1, 2, 3, 4, 0x69, 0x6b, 0x82, 0x81, 5, 6, 7, 8, 2] := by
  decide

end Http.WebSocketOutgoingTransformer
