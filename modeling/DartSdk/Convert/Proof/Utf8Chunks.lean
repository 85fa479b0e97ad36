import DartSdk.Convert.Proof.Utf8Decoder

/-!
# Chunked decoding is decoding in one go

* `decodeChunks_settled`, `decodeChunks_bom`: all the chunks and the end are one run of the
  transducer, after a byte order mark.
* `decodeWhole_eq`: so is `decodeGeneral` on all the bytes.
* `fastRun_fills`: the fast decoders write into the strings they allocate, and fill them when they
  succeed.
* `decodeChunks_spec`: all of this together.
-/

namespace Convert.Utf8Decoder

open Transducer Slices List

/-! ## The outcome -/

/-- The outcome of bytes that begin at a position, after an unfinished character. -/
def outcome (allowMalformed : Bool) (position : Nat) (q : Carry) (w : List UInt8) :
    Except Failure Text :=
  match run (step allowMalformed) q w with
  | .error (m, k) => .error (.format (errorDescription m.code) ((position + k : Nat) : Int))
  | .ok (q', out) =>
    if q'.phase = .accept then .ok out
    else if allowMalformed then .ok (out ++ [replacement])
    else .error (.format (errorDescription errorUnfinished) ((position + w.length : Nat) : Int))

/-- The outcome of all the bytes, without a byte order mark. -/
def outcomeOfAll (allowMalformed : Bool) (w : List UInt8) : Except Failure Text :=
  if bom <+: w then outcome allowMalformed 3 .empty (w.drop 3)
  else outcome allowMalformed 0 .empty w

variable {allowMalformed : Bool} {position k start : Nat} {q : Carry} {v w : List UInt8}
  {d : Utf8Decoder}

theorem outcome_append {q' : Carry} {out : Text} (h : run (step allowMalformed) q v = .ok (q', out)) :
    outcome allowMalformed position q (v ++ w) =
      (outcome allowMalformed (position + v.length) q' w).map (out ++ ·) := by
  unfold outcome
  rw [run_append_ok h]
  cases run (step allowMalformed) q' w with
  | error p => simp only [Except.map, Nat.add_assoc]
  | ok p =>
    obtain ⟨q'', out'⟩ := p
    simp only [length_append, Nat.add_assoc]
    split_ifs <;> simp [Except.map]

theorem outcome_append_error {m : Malformation} (h : run (step allowMalformed) q v = .error (m, k)) :
    outcome allowMalformed position q (v ++ w) =
      .error (.format (errorDescription m.code) ((position + k : Nat) : Int)) := by
  unfold outcome
  rw [run_append_error h]

/-- The end of the input. -/
theorem decodeChunks_nil (position : Nat) (hd : Carries d q) :
    decodeChunks d position [] = outcome d.allowMalformed position q [] := by
  have hw : writeCharCode [] unicodeReplacementCharacterRune = .ok [replacement] := rfl
  unfold decodeChunks outcome flush
  rw [run_nil, get_bind, set_bind, hd.state_eq]
  by_cases ha : q.phase = .accept
  · rw [if_pos (code_le_afterBom.2 ha)]
    simp only [ha, if_true]
    rfl
  rw [if_neg (fun h => ha (code_le_afterBom.1 h))]
  simp only [ha, if_false]
  split_ifs
  · rw [hw]
    rfl
  · rfl

variable {p off ix st' stop size fl : Nat}

/-- A chunk and the rest, when the chunk does what the run says. -/
theorem decodeChunks_cons {d0 : Utf8Decoder} {c : Chunk} {cs : List Chunk}
    {rest : List UInt8} (hc : Converts d0 off (c.convert d) (run (step allowMalformed) q w))
    (hps : position + off = p + c.start)
    (hl : position + c.bytes.length = p + w.length)
    (hrs : ∀ d' q', Continues d0 q' d' → decodeChunks d' (p + w.length) cs =
      outcome allowMalformed (p + w.length) q' rest) :
    decodeChunks d position (c :: cs) = outcome allowMalformed p q (w ++ rest) := by
  unfold decodeChunks
  cases hrn : run (step allowMalformed) q w with
  | error r =>
    rw [hrn] at hc
    obtain ⟨d', hcn⟩ := hc
    rw [hcn, outcome_append_error hrn]
    simp only [Failure.of]
    congr 2
    omega
  | ok r =>
    obtain ⟨q', out⟩ := r
    rw [hrn] at hc
    obtain ⟨d', hcn, hd'⟩ := hc
    rw [hcn, outcome_append hrn]
    simp only [hl, hrs d' q' hd']
    rfl

/-- **All the chunks** when the byte order mark is settled. -/
theorem decodeChunks_settled (position : Nat) (cs : List Chunk) (hd : Carries d q)
    (hb : d.bomIndex = -1) :
    decodeChunks d position cs = outcome d.allowMalformed position q (cs.flatMap Chunk.bytes) := by
  induction cs generalizing d q position with
  | nil => exact decodeChunks_nil position hd
  | cons c cs ih =>
    rw [flatMap_cons]
    refine decodeChunks_cons (convert_settled c hd hb) rfl rfl fun d' q' hd' => ?_
    rw [← hd'.allowMalformed_eq]
    exact ih _ hd'.carries (by rw [hd'.bomIndex_eq, hb])

theorem outcome_bomCarry (allowMalformed : Bool) (hk : k < 3) (w : List UInt8) :
    outcome allowMalformed 0 .empty (bom.take k ++ w) = outcome allowMalformed k (bomCarry k) w := by
  have hr : run advance .empty (bom.take k) = .ok (bomCarry k, []) := by
    have hz := run_bom 0 k (by omega)
    rw [Nat.zero_add, drop_zero] at hz
    exact hz
  have hl : (bom.take k).length = k := by
    rw [length_take]
    exact Nat.min_eq_left (Nat.le_of_lt hk)
  rw [outcome_append (run_step_of_advance allowMalformed hr), Nat.zero_add, hl]
  cases outcome allowMalformed k (bomCarry k) w <;> rfl

/-- **All the chunks** after the first `k` bytes of a byte order mark. -/
theorem decodeChunks_bom (cs : List Chunk) (hk : k < 3) (hb : d.bomIndex = k)
    (hd : Carries d (bomCarry k)) :
    decodeChunks d k cs = outcomeOfAll d.allowMalformed (bom.take k ++ cs.flatMap Chunk.bytes) := by
  induction cs generalizing d k with
  | nil =>
    have hno : ¬bom <+: bom.take k ++ ([] : List Chunk).flatMap Chunk.bytes := by
      intro h
      have hle := h.length_le
      rw [flatMap_nil, append_nil, length_take] at hle
      have hth : bom.length = 3 := rfl
      omega
    rw [outcomeOfAll, if_neg hno, outcome_bomCarry _ hk]
    exact decodeChunks_nil k hd
  | cons c cs ih =>
    have ht : bom.take k ++ bom.drop k = bom := take_append_drop k bom
    rw [flatMap_cons]
    rcases convert_bom c hk hb hd with ⟨w, hw, hc⟩ | ⟨r, d', hr, hw, hc, hd', hb', ham⟩ | ⟨hno, hc⟩
    · have ha : bom.take k ++ (c.bytes ++ cs.flatMap Chunk.bytes) =
          bom ++ (w ++ cs.flatMap Chunk.bytes) := by
        rw [hw, append_assoc, ← append_assoc, ht]
      have hl : c.bytes.length = 3 - k + w.length := by
        rw [hw, length_append, length_drop]
        rfl
      rw [outcomeOfAll, ha, if_pos (prefix_append _ _),
        show (bom ++ (w ++ cs.flatMap Chunk.bytes)).drop 3 = w ++ cs.flatMap Chunk.bytes from rfl]
      refine decodeChunks_cons hc (by omega) (by omega) fun d' q' hd' => ?_
      have hrs := decodeChunks_settled (3 + w.length) cs hd'.carries
        (by rw [hd'.bomIndex_eq])
      rw [hrs, hd'.allowMalformed_eq]
    · unfold decodeChunks
      have hlt : k + c.bytes.length < 3 := by
        have hln := congrArg List.length hw
        rw [length_append, length_drop] at hln
        have hrp := length_pos_of_ne_nil hr
        have hth : bom.length = 3 := rfl
        omega
      have hm : bom.take k ++ c.bytes = bom.take (k + c.bytes.length) := by
        rw [take_add, hw, take_left]
      rw [hc, ← append_assoc, hm, ← ham, ← ih hlt hb' hd']
      dsimp only
      cases decodeChunks d' (k + c.bytes.length) cs <;> rfl
    · have hn : ¬bom <+: bom.take k ++ (c.bytes ++ cs.flatMap Chunk.bytes) := by
        rw [← ht, take_append_of_le_length (by simp [bom]; omega), take_take, Nat.min_self,
          prefix_append_right_inj]
        exact hno _
      rw [outcomeOfAll, if_neg hn, outcome_bomCarry _ hk]
      refine decodeChunks_cons hc rfl rfl fun d' q' hd' => ?_
      have hrs := decodeChunks_settled (k + c.bytes.length) cs hd'.carries
        (by rw [hd'.bomIndex_eq])
      rw [hrs, hd'.allowMalformed_eq]

/-! ## Decoding in one go -/

theorem skipBomSingle_eq (w : List UInt8) :
    skipBomSingle w 0 w.length = .ok (if bom <+: w then 3 else 0) := by
  unfold skipBomSingle
  by_cases hl : w.length - 0 ≥ 3
  · obtain ⟨a, b, c, w, rfl⟩ : ∃ a b c w', w = a :: b :: c :: w' := by
      match w, hl with
      | a :: b :: c :: w', _ => exact ⟨a, b, c, w', rfl⟩
    have hp : bom <+: a :: b :: c :: w ↔ 0xEF = a ∧ 0xBB = b ∧ 0xBF = c := by
      simp [bom]
    rw [if_pos hl]
    simp only [byteAt, getElem?_cons_zero, getElem?_cons_succ, ok_bind, hp]
    have hby : ∀ x y : UInt8, (x = y ↔ y.toNat = x.toNat) := fun x y =>
      ⟨fun h => by rw [h], fun h => (UInt8.toNat_inj.1 h).symm⟩
    simp only [hby, Bool.and_eq_true, decide_eq_true_eq, and_assoc]
    exact (apply_ite Except.ok _ _ _).symm
  · have hno : ¬bom <+: w := by
      intro h
      have hle := h.length_le
      have ht : bom.length = 3 := rfl
      omega
    rw [if_neg hl, if_neg hno]
    rfl

/-- The result of a conversion that begins with all the bytes. -/
def resultOf (r : EStateM.Result DecodeError Utf8Decoder Text) : Except Failure Text :=
  match r with
  | .ok text _ => .ok text
  | .error error _ => .error (.of 0 0 error)

/-- A conversion of all the bytes from an index on, by what its loop does. -/
theorem convertGeneral_outcome (hln : start < w.length)
    (hi : ix + v.length = w.length)
    (hl : Agrees ix [] (generalLoop d.allowMalformed w w.length (2 * (w.length - start))
      d.state d.charOrIndex (start + 1) w[start].toNat []) (run (step d.allowMalformed) q v)) :
    resultOf (convertGeneral (.uint8List w) start none true d) =
      outcome d.allowMalformed ix q v := by
  have hsn := decodeGeneral_single hln hl
  unfold DecodesSingle at hsn
  unfold outcome
  cases hr : run (step d.allowMalformed) q v with
  | error p =>
    simp only [hr] at hsn
    rw [convertGeneral_eq hln hsn]
    simp only [isErrorState_malformation, if_true, resultOf, Failure.of]
    congr 2
    omega
  | ok p =>
    obtain ⟨q', out⟩ := p
    simp only [hr] at hsn
    dsimp only
    by_cases ha : q'.phase = .accept
    · rw [if_pos (.inl ha)] at hsn
      obtain ⟨char, hdc⟩ := hsn
      rw [convertGeneral_eq hln hdc, isErrorState_phase, if_pos ha, if_pos ha]
      rfl
    · rw [if_neg ha]
      by_cases hm : d.allowMalformed
      · rw [if_pos (.inr hm)] at hsn
        obtain ⟨char, hdc⟩ := hsn
        rw [convertGeneral_eq hln hdc, isErrorState_phase, if_neg ha, if_pos hm]
        rfl
      · rw [if_neg (by simp [ha, hm])] at hsn
        rw [convertGeneral_eq hln hsn, if_neg hm, hi]
        simp only [show isErrorState errorUnfinished = true from rfl, if_true, resultOf, Failure.of]
        congr 2
        omega

/-- **`decodeGeneral` on all the bytes.** -/
theorem decodeWhole_eq (allowMalformed : Bool) (w : List UInt8) :
    decodeWhole allowMalformed w = outcomeOfAll allowMalformed w := by
  obtain ⟨start, hst, hsk, ha⟩ : ∃ start ≤ w.length, skipBomSingle w 0 w.length = .ok start ∧
      outcomeOfAll allowMalformed w =
        outcome allowMalformed start .empty (slice w start w.length) := by
    rw [skipBomSingle_eq, outcomeOfAll]
    split_ifs with h
    · exact ⟨3, h.length_le, rfl, by rw [slice, take_length]⟩
    · exact ⟨0, Nat.zero_le _, rfl, by rw [slice_all]⟩
  have hd : Carries (create allowMalformed) .empty := ⟨rfl, empty_holds _⟩
  rw [ha, decodeWhole, hsk, lift_ok_bind]
  obtain rfl | hlt := Nat.eq_or_lt_of_le hst
  · rw [convertGeneral_empty, slice_self]
    rfl
  · refine convertGeneral_outcome hlt ?_ (generalLoop_run (Nat.le_refl w.length) hd hlt hlt)
    rw [slice_length le_rfl]
    omega

/-! ## The fast decoders -/

/-- The decoders after chunks have been converted. -/
inductive Reached (allowMalformed : Bool) : Utf8Decoder → Prop where
  | create : Reached allowMalformed (create allowMalformed)
  | convert {d d' : Utf8Decoder} {text : Text} (c : Chunk) : Reached allowMalformed d →
      c.convert d = .ok text d' → Reached allowMalformed d'

/-- The calls that `convertChunked` makes to the fast decoders, with the size it has computed. -/
inductive FastCall (allowMalformed : Bool) :
    Utf8Decoder → List UInt8 → Nat → Nat → Nat → Nat → Prop where
  | mk (d₀ d : Utf8Decoder) (c : Chunk) {bytes : List UInt8}
      {errorOffset start₀ start stop scannedSize scannedFlags carriedSize size flags : Nat}
      (reached : Reached allowMalformed d₀)
      (have_bytes : haveBytes c.codeUnits c.start c.stop = (bytes, errorOffset, start₀, stop))
      (skip : d₀.skipBomChunked bytes start₀ stop = .ok (d, start)) (nonempty : start ≠ stop)
      (scanned : scan bytes start stop = .ok (scannedSize, scannedFlags))
      (carried : addCarryOver { d with scanFlags := scannedFlags } (stop - start) scannedSize
        scannedFlags = (carriedSize, flags))
      (not_ascii : flags ≠ 0) (dropped : dropIncomplete bytes start stop carriedSize = .ok size) :
      FastCall allowMalformed { d with scanFlags := scannedFlags } bytes start stop size flags

/-- A decoder that has settled the byte order mark or read the beginning of it. -/
def Sound (d : Utf8Decoder) : Prop :=
  (d.bomIndex = -1 ∧ ∃ q, Carries d q) ∨ ∃ k < 3, d.bomIndex = (k : Nat) ∧ Carries d (bomCarry k)

theorem Converts.sound {d' : Utf8Decoder} {text : Text}
    {r : EStateM.Result DecodeError Utf8Decoder Text}
    {e : Except (Malformation × Nat) (Carry × Text)} (h : Converts d off r e) (hr : r = .ok text d')
    (hb : d.bomIndex = -1) : Sound d' := by
  cases e with
  | error p =>
    obtain ⟨d'', h⟩ := h
    rw [h] at hr
    cases hr
  | ok p =>
    obtain ⟨d'', h, hd'⟩ := h
    rw [h] at hr
    cases hr
    exact .inl ⟨by rw [hd'.bomIndex_eq, hb], p.1, hd'.carries⟩

theorem Reached.sound (h : Reached allowMalformed d) : Sound d := by
  induction h with
  | create => exact .inr ⟨0, by decide, rfl, rfl, empty_holds _⟩
  | convert c _ hcn ih =>
    rcases ih with ⟨hb, q, hd⟩ | ⟨k, hk, hb, hd⟩
    · exact (convert_settled c hd hb).sound hcn hb
    rcases convert_bom c hk hb hd with ⟨w, -, hc⟩ | ⟨r, d', hr, hw, hc, hd', hb', -⟩ | ⟨-, hc⟩
    · exact hc.sound hcn rfl
    · rw [hc] at hcn
      cases hcn
      refine .inr ⟨k + c.bytes.length, ?_, hb', hd'⟩
      have hl := congrArg List.length hw
      rw [length_append, length_drop] at hl
      have hrp := length_pos_of_ne_nil hr
      have ht : bom.length = 3 := rfl
      omega
    · exact hc.sound hcn rfl

/-- The decoder after the byte order mark holds an unfinished character. -/
theorem Sound.skipBomChunked {d' : Utf8Decoder} {bs : List UInt8} (hd : Sound d)
    (hst : start ≤ stop) (hsp : stop ≤ bs.length)
    (h : d.skipBomChunked bs start stop = .ok (d', st')) : st' ≤ stop ∧ ∃ q, Carries d' q := by
  unfold Utf8Decoder.skipBomChunked at h
  rw [check_eq (decide_eq_true hst), ok_bind] at h
  rcases hd with ⟨hb, q, hd⟩ | ⟨k, hk, hb, hd⟩
  · rw [if_pos hb] at h
    cases h
    exact ⟨hst, q, hd⟩
  rw [if_neg (by omega), hb, Int.toNat_natCast] at h
  rcases skipBomLoop_eq d start hsp 4 k start (by omega) (by omega) hst with
    ⟨w, hw, hrs⟩ | ⟨r, hr, hw, hrs⟩ | ⟨hno, hrs⟩
  · rw [hrs] at h
    cases h
    refine ⟨?_, .empty, rfl, empty_holds _⟩
    have hl := congrArg List.length hw
    rw [slice_length hsp, length_append, length_drop] at hl
    have ht : bom.length = 3 := rfl
    omega
  · rw [hrs] at h
    cases h
    exact ⟨hst, bomCarry k, hd.state_eq, hd.holds⟩
  · rw [hrs] at h
    cases h
    exact ⟨hst, bomCarry k, hd.state_eq, hd.holds⟩

/-- **The fast decoders** write into the string they allocate, and fill it when they succeed. -/
theorem fastRun_fills {bs : List UInt8} (h : FastCall allowMalformed d bs start stop size fl) : ∃ r,
    d.fastRun bs start stop size fl = .ok r ∧ ∀ state char result j, r = .done state char result j →
    j = size ∧ result.length = size ∧ none ∉ result := by
  obtain ⟨d0, d1, c, reached, have_bytes, skip, nonempty, scanned, carried, not_ascii, hdr⟩ := h
  obtain ⟨bs, errorOffset, start0, stop, hhv, hst0, hsp, -, -⟩ := haveBytes_spec c
  rw [hhv] at have_bytes
  cases have_bytes
  obtain ⟨hst, q, hd⟩ := reached.sound.skipBomChunked hst0 hsp skip
  have hlt : start < stop := Nat.lt_of_le_of_ne hst nonempty
  rw [scan_eq hsp hst] at scanned
  cases scanned
  have hd' : Carries { d1 with scanFlags := flagsOf (slice bs start stop) } q :=
    ⟨hd.state_eq, hd.holds⟩
  rw [addCarryOver_eq hd' (by omega)] at carried
  cases carried
  obtain ⟨size', hdp, hrm, hfl⟩ := dropIncomplete_spec hd.holds.inRange hsp hst
  rw [hdp] at hdr
  cases hdr
  have hf := fastRun_agrees hsp hd' hlt hrm
  cases hrn : run advance q (slice bs start stop) with
  | error p =>
    rw [hrn] at hf
    exact ⟨_, hf, fun _ _ _ _ h => by cases h⟩
  | ok p =>
    rw [hrn] at hf
    obtain ⟨char, -, hdn⟩ := hf
    refine ⟨_, hdn, fun _ _ _ _ h => ?_⟩
    cases h
    have hsz := hfl p.1 p.2 hrn
    rw [nil_append, partString, hsz, Nat.sub_self, replicate_zero, append_nil]
    exact ⟨rfl, by rw [length_map, hsz], by simp⟩

/-! ## The result -/

theorem outcomeOfAll_error {failure : Failure} (h : outcomeOfAll allowMalformed w = .error failure) :
    ∃ message position, failure = .format message position := by
  have hf : ∀ position q v, outcome allowMalformed position q v = .error failure →
      ∃ message position, failure = .format message position := by
    intro position q v h
    unfold outcome at h
    split at h
    · cases h
      exact ⟨_, _, rfl⟩
    · split_ifs at h
      cases h
      exact ⟨_, _, rfl⟩
  unfold outcomeOfAll at h
  split_ifs at h
  · exact hf _ _ _ h
  · exact hf _ _ _ h

/-- **The chunked decoder**: the chunks and the end give the text, or fail, as `decodeGeneral` does on
all the bytes after a byte order mark; a failure is a format exception; and the fast decoders write
into the string that was allocated for them and fill it when they succeed. -/
theorem decodeChunks_spec (allowMalformed : Bool) :
    (∀ chunks : List Chunk, decodeChunks (create allowMalformed) 0 chunks =
      decodeWhole allowMalformed (chunks.flatMap Chunk.bytes)) ∧
    (∀ (chunks : List Chunk) (failure : Failure),
      decodeChunks (create allowMalformed) 0 chunks = .error failure →
        ∃ message position, failure = .format message position) ∧
    (∀ (d : Utf8Decoder) (bytes : List UInt8) (start stop size flags : Nat),
      FastCall allowMalformed d bytes start stop size flags →
        ∃ r, d.fastRun bytes start stop size flags = .ok r ∧
          ∀ state char result j, r = .done state char result j →
            j = size ∧ result.length = size ∧ none ∉ result) := by
  have hc : ∀ chunks : List Chunk, decodeChunks (create allowMalformed) 0 chunks =
      outcomeOfAll allowMalformed (chunks.flatMap Chunk.bytes) := fun chunks =>
    decodeChunks_bom chunks (by decide) rfl
      ⟨rfl, empty_holds _⟩
  refine ⟨fun chunks => ?_, fun chunks failure h => ?_, fun _ _ _ _ _ _ => fastRun_fills⟩
  · rw [hc, decodeWhole_eq]
  · rw [hc] at h
    exact outcomeOfAll_error h

/-- A character that is cut in two and its second chunk, which `decode8` decodes. -/
theorem decodeChunks_twoChunks :
    decodeChunks (create false) 0
        [⟨.uint8List [0x41, 0xC3], 0, none, 2, rfl⟩, ⟨.list [0xFF, 0xA9], 1, some 2, 2, rfl⟩] =
      .ok [0x41, 0xE9] ∧
    ∃ r, (Utf8Decoder.mk false X1 3 flagExtension (-1)).fastRun [0xA9] 0 1 1
        (flagExtension ||| flagLatin1) = .ok r ∧
      ∀ state char result j, r = .done state char result j →
        j = 1 ∧ result.length = 1 ∧ none ∉ result := by
  have hc : Chunk.convert ⟨.uint8List [0x41, 0xC3], 0, none, 2, rfl⟩ (create false) =
      .ok [0x41] ⟨false, X1, 3, flagLatin1, -1⟩ := rfl
  have hsc : scan [0xA9] 0 1 = .ok (0, flagExtension) := rfl
  have hd : dropIncomplete [0xA9] 0 1 1 = .ok 1 := rfl
  refine ⟨((decodeChunks_spec false).1 _).trans rfl, (decodeChunks_spec false).2.2 _ _ _ _ _ _ ?_⟩
  exact .mk ⟨false, X1, 3, flagLatin1, -1⟩ ⟨false, X1, 3, flagLatin1, -1⟩
    ⟨.list [0xFF, 0xA9], 1, some 2, 2, rfl⟩ (.convert _ .create hc) rfl rfl (by decide) hsc rfl
    (by decide) hd

end Convert.Utf8Decoder
