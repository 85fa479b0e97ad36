import DartSdk.Convert.Proof.DecodeGeneral
import DartSdk.Convert.Proof.Utf8Size

/-!
# `decode8` and `decode16` are the transducer

The fast decoders write into a string that was allocated before. With enough room for what the run
puts out they do what the run of `advance` does, and the string holds the output so far.

* `decode16Run_agrees`: any bytes.
* `decode8Run_agrees`: bytes of Latin-1 characters.
-/

namespace Convert.Utf8Decoder

open Transducer Slices List

/-! ## Strings with room -/

/-- A string of which the first part was written. -/
def partString (size : Nat) (text : Text) : List (Option UInt16) :=
  text.map some ++ List.replicate (size - text.length) none

theorem writeIntoString_eq (size : Nat) (text : Text) (unit : UInt16)
    (h : text.length < size) : writeIntoString (partString size text) text.length unit =
      .ok (partString size (text ++ [unit])) := by
  obtain ⟨n, hn⟩ : ∃ n, size - text.length = n + 1 := ⟨size - text.length - 1, by omega⟩
  have hn' : size - (text ++ [unit]).length = n := by
    rw [length_append, length_singleton]
    omega
  unfold writeIntoString partString
  rw [hn', hn, if_pos (by simp), set_append_right _ _ (by simp), length_map,
    Nat.sub_self, replicate_succ, set_cons_zero, map_append, map_singleton, append_assoc]
  rfl

theorem readString_partString {text : Text} : readString (partString text.length text) = .ok text := by
  have hr : (text.map some).mapM id = some text := by
    induction text with
    | nil => rfl
    | cons u text ih => simp [ih]
  simp [readString, partString, hr]

variable {char : Nat} {q : Carry} {b : UInt8}

variable {size ix p st i x : Nat}

theorem writeChar_eq {text : Text} (hch : char < 0x110000)
    (h : text.length + (units char).length ≤ size) : writeChar (partString size text) text.length
    char = .ok (partString size (text ++ units char), (text ++ units char).length) := by
  rw [units_length] at h
  unfold writeChar writeIntoTwoByteString
  by_cases hc : char < 0x10000
  · rw [if_pos hc] at h
    rw [if_neg (by omega), writeIntoString_eq _ _ _ (by omega), units, if_pos hc, length_append]
    rfl
  rw [if_neg hc] at h
  have hf := writeIntoString_eq size text (UInt16.ofNat (0xD7C0 + (char >>> 10))) (by omega)
  have hsc := writeIntoString_eq size (text ++ [UInt16.ofNat (0xD7C0 + (char >>> 10))])
    (UInt16.ofNat (0xDC00 + (char &&& 0x3FF)))
    (by rw [length_append, length_singleton]; omega)
  rw [length_append, length_singleton] at hsc
  rw [if_pos (by omega), check_eq (decide_eq_true hch), ok_bind, hf, ok_bind, hsc, units, if_neg hc,
    append_assoc, length_append, Bits.shiftRight,
    show (0x3FF : Nat) = 2 ^ 10 - 1 from rfl, Bits.and_low]
  rfl

/-! ## What the fast decoders should do -/

/-- What a fast decoder does from `index` on with text written, by the run from there. -/
def FastAgrees (index size : Nat) (text : Text) (r : Except DecodeError Fast) :
    Except (Malformation × Nat) (Carry × Text) → Prop
  | .ok (q, out) => ∃ char, q.Holds char ∧
      r = .ok (.done q.phase.code char (partString size (text ++ out)) (text ++ out).length)
  | .error (m, k) => r = .ok (.failed m.code (index + k))

theorem FastAgrees.cons {text out : Text} {r : Except DecodeError Fast} {q' : Carry}
    {w : List UInt8} (hb : advance q b = .ok (q', out))
    (h : FastAgrees (ix + 1) size (text ++ out) r (run advance q' w)) : FastAgrees ix size text r
    (run advance q (b :: w)) := by
  rw [run_cons_ok hb]
  cases hw : run advance q' w with
  | ok p =>
    rw [hw] at h
    obtain ⟨char, hc, hr⟩ := h
    exact ⟨char, hc, by rw [hr, append_assoc]⟩
  | error p =>
    rw [hw] at h
    simp only [FastAgrees] at h ⊢
    rw [h, Nat.add_right_comm, Nat.add_assoc]

section

variable {bs : List UInt8} {stop size : Nat}

/-! ## `decode16` -/

/-- **The loop of `decode16`** after a byte, which it has looked up but not acted upon. -/
theorem decode16Loop_agrees (hst : stop ≤ bs.length) (fuel : Nat)
    (text : Text) (hq : q.InRange) (hl : p < bs.length) (hp : p < stop)
    (hf : stop - p ≤ fuel)
    (hc : ∀ phase, next q.phase bs[p].toNat = .ok phase → char = q.extend bs[p].toNat)
    (hr : text.length + (output advance q (slice bs p stop)).length ≤ size) :
    FastAgrees p size text
      (decode16Loop bs stop fuel (p + 1) text.length (codeOf (next q.phase bs[p].toNat)) char
        (partString size text)) (run advance q (slice bs p stop)) := by
  induction fuel generalizing q char p text with
  | zero => omega
  | succ fuel ih =>
    have hb := bs[p].toNat_lt
    rw [slice_cons hp hst] at hr ⊢
    rw [decode16Loop]
    cases hn : next q.phase bs[p].toNat with
    | error m =>
      rw [run_cons_error (advance_error hn)]
      simp only [codeOf, malformation_ne_accept, if_false, isErrorState_malformation, if_true]
      by_cases hen : p + 1 < stop
      · have hb' := bs[p + 1].toNat_lt
        simp only [if_pos hen, byteAt_eq (by omega : p + 1 < bs.length), ok_bind, byteType_eq hb']
        rfl
      · obtain rfl : stop = p + 1 := by omega
        rw [if_neg hen]
        rfl
    | ok phase =>
      obtain rfl := hc phase hn
      simp only [codeOf, isErrorState_phase]
      by_cases hac : phase = .accept
      · subst hac
        have ha := advance_accept hn
        rw [output_cons_ok ha, length_append] at hr
        have hw := writeChar_eq ((extend_inRange hb hq hn).2 rfl)
          (by omega : text.length + (units (q.extend bs[p].toNat)).length ≤ size)
        refine FastAgrees.cons ha ?_
        simp only [show Phase.code .accept = accept from rfl, if_true, hw, ok_bind]
        by_cases hen : p + 1 < stop
        · have hl' : p + 1 < bs.length := by omega
          have hb' := bs[p + 1].toNat_lt
          have ht := transition_eq .accept hb'
          rw [show Phase.code .accept = 0 from rfl, Nat.zero_add] at ht
          simp only [if_pos hen, byteAt_eq hl', ok_bind, byteType_eq hb', ht]
          refine ih _ empty_inRange hl' hen (by omega) (fun phase hph => ?_) ?_
          · have he := extend_eq hb' (empty_holds 0).char_eq hph
            rwa [if_pos (by decide)] at he
          · rw [length_append]
            omega
        · obtain rfl : stop = p + 1 := by omega
          rw [if_neg hen, slice_self, run_nil]
          exact ⟨_, empty_holds _, by rw [List.append_nil]; rfl⟩
      · have hne : phase.code ≠ accept := fun h => hac (code_eq_accept.1 h)
        have ha := advance_incomplete hn hac
        have hrn := (extend_inRange hb hq hn).1
        rw [output_cons_ok ha, nil_append] at hr
        refine FastAgrees.cons ha ?_
        rw [List.append_nil]
        simp only [hne, if_false, Bool.false_eq_true]
        by_cases hen : p + 1 < stop
        · have hl' : p + 1 < bs.length := by omega
          have hb' := bs[p + 1].toNat_lt
          simp only [if_pos hen, byteAt_eq hl', ok_bind, byteType_eq hb', transition_eq phase hb']
          refine ih _ hrn hl' hen (by omega) (fun phase' hph => ?_) hr
          have he := extend_eq hb' (fun _ => rfl) hph
          rwa [if_neg (fun hle => hac (code_le_afterBom.1 hle))] at he
        · obtain rfl : stop = p + 1 := by omega
          rw [if_neg hen, slice_self, run_nil]
          exact ⟨_, ⟨hrn, fun _ => rfl⟩, by rw [List.append_nil]; rfl⟩

/-- **`decode16`** with enough room. -/
theorem decode16Run_agrees {d : Utf8Decoder} (hsp : stop ≤ bs.length) (hd : Carries d q)
    (hst : st < stop) (hr : (output advance q (slice bs st stop)).length ≤ size) : FastAgrees st
    size [] (d.decode16Run bs st stop size) (run advance q (slice bs st stop)) := by
  have hln : st < bs.length := by omega
  have hb := bs[st].toNat_lt
  have hsa : check (!isErrorState d.state) = .ok () := check_eq (by simp [hd.state_eq])
  have hl : ∀ char, (∀ phase, next q.phase bs[st].toNat = .ok phase →
        char = q.extend bs[st].toNat) →
      FastAgrees st size []
        (decode16Loop bs stop (stop - st) (st + 1) 0
          (codeOf (next q.phase bs[st].toNat)) char (allocateString size))
        (run advance q (slice bs st stop)) := fun char hc =>
    decode16Loop_agrees hsp _ [] hd.holds.inRange hln hst le_rfl hc
      (by rwa [length_nil, Nat.zero_add])
  unfold decode16Run
  simp only [check_eq (decide_eq_true hst), hsa, ok_bind, byteAt_eq hln, byteType_eq hb]
  by_cases ha : q.phase = .accept
  · have ht := transition_eq .accept hb
    rw [show Phase.code .accept = 0 from rfl, Nat.zero_add] at ht
    simp only [hd.state_eq, if_pos (code_eq_accept.2 ha), ht, ok_bind]
    rw [ha] at hl
    refine hl _ fun phase hn => ?_
    have he := extend_eq hb hd.holds.char_eq (by rwa [ha])
    rwa [if_pos (code_le_afterBom.2 ha)] at he
  · simp only [hd.state_eq, if_neg (fun h => ha (code_eq_accept.1 h)), transition_eq q.phase hb,
      ok_bind]
    refine hl _ fun phase hn => ?_
    have he := extend_eq hb hd.holds.char_eq hn
    rwa [if_neg (fun hle => ha (code_le_afterBom.1 hle))] at he

/-! ## `decode8` -/

/-- The bytes of Latin-1 characters. -/
def Latin1 (w : List UInt8) : Prop := ∀ b ∈ w, b.toNat < 0xC0 ∨ b.toNat = 0xC2 ∨ b.toNat = 0xC3

/-- The second byte as `decode8` takes it. -/
theorem xor_extension : ∀ byte < 0x100, (byte ^^^ 0x80 < 0x40 ↔ isExtension byte) ∧
    (isExtension byte → byte ^^^ 0x80 = byte % 0x40) := by
  decide +kernel

/-- The character of two bytes as `decode8` writes it. -/
theorem latin1_char : ∀ char < 4, 2 ≤ char → ∀ e < 0x40,
    UInt16.ofNat (((char <<< 6) ||| e) &&& 0xFF) = UInt16.ofNat (char * 0x40 + e) ∧
    UInt16.ofNat ((((0xC0 + char) <<< 6) ||| e) &&& 0xFF) = UInt16.ofNat (char * 0x40 + e) := by
  decide +kernel

theorem advance_second (hc : char < 4) : (isExtension b.toNat → advance ⟨.x1, char⟩ b =
      .ok (.empty, [UInt16.ofNat (char * 0x40 + b.toNat % 0x40)])) ∧
    (¬isExtension b.toNat → advance ⟨.x1, char⟩ b = .error .missingExtension) := by
  refine ⟨fun hex => ?_, fun hex => ?_⟩
  · have hn : next (Carry.mk .x1 char).phase b.toNat = .ok .accept := by
      rw [next, if_neg (by simp), if_pos hex]
      rfl
    have he : Carry.extend ⟨.x1, char⟩ b.toNat = char * 0x40 + b.toNat % 0x40 := by
      rw [Carry.extend, if_neg (by simp)]
    rw [advance_accept hn, he, units, if_pos (by omega)]
  · refine advance_error ?_
    rw [next, if_neg (by simp), if_neg hex]

theorem advance_latin1 (hb : b.toNat = 0xC0 + char) (hlo : 2 ≤ char)
    (hhi : char < 4) : advance .empty b = .ok (⟨.x1, char⟩, []) := by
  have hn : next Carry.empty.phase b.toNat = .ok .x1 := by
    rw [next, if_pos empty_phase, first, if_neg (by omega), if_neg (by omega), if_neg (by omega),
      if_pos (by omega)]
  have he : Carry.extend .empty b.toNat = char := by
    rw [Carry.extend, if_pos empty_phase, lead, if_neg (by omega), if_pos (by omega)]
    omega
  rw [advance_incomplete hn (by decide), he]

theorem Latin1.succ (h : Latin1 (slice bs i stop)) (hi : i < stop) (hst : stop ≤ bs.length) : Latin1
    (slice bs (i + 1) stop) := by
  rw [slice_cons hi hst] at h
  exact fun b hb => h b (.tail _ hb)

/-- **The second byte of a character**, as `decode8` reads it at its start and in its loop. -/
theorem second_agrees (hst : stop ≤ bs.length) {text : Text}
    {k : List (Option UInt16) → Except DecodeError Fast} (hi : i < stop) (hhi : char < 4)
    (hx : ∀ e < 0x40, UInt16.ofNat ((x <<< 6 ||| e) &&& 0xFF) = UInt16.ofNat (char * 0x40 + e))
    (hr : text.length + (output advance ⟨.x1, char⟩ (slice bs i stop)).length ≤ size)
    (hk : ∀ unit,
      (text ++ [unit]).length + (output advance .empty (slice bs (i + 1) stop)).length ≤ size →
      FastAgrees (i + 1) size (text ++ [unit]) (k (partString size (text ++ [unit])))
        (run advance .empty (slice bs (i + 1) stop))) :
    FastAgrees i size text
      (do
        let e := (← byteAt bs i) ^^^ 0x80
        if e ≥ 0x40 then return .failed errorMissingExtension i
        k (← writeIntoOneByteString (partString size text) text.length ((x <<< 6) ||| e)))
      (run advance ⟨.x1, char⟩ (slice bs i stop)) := by
  have hsc := advance_second (b := bs[i]) hhi
  have hxr := xor_extension bs[i].toNat bs[i].toNat_lt
  rw [slice_cons hi hst] at hr ⊢
  rw [byteAt_eq (by omega), ok_bind]
  by_cases hex : isExtension bs[i].toNat
  · have hlt := hxr.1.2 hex
    rw [output_cons_ok (hsc.1 hex), length_append, length_singleton] at hr
    refine FastAgrees.cons (hsc.1 hex) ?_
    rw [if_neg (by omega), writeIntoOneByteString, hxr.2 hex, hx _ (Nat.mod_lt _ (by decide)),
      writeIntoString_eq _ _ _ (by omega), ok_bind]
    refine hk _ ?_
    rw [length_append, length_singleton]
    omega
  · have hge : ¬bs[i].toNat ^^^ 0x80 < 0x40 := fun h => hex (hxr.1.1 h)
    rw [if_pos (by omega), run_cons_error (hsc.2 hex)]
    rfl

/-- **The loop of `decode8`.** -/
theorem decode8Loop_agrees (hst : stop ≤ bs.length) (fuel : Nat) (text : Text) (hi : i ≤ stop)
    (hf : stop - i ≤ fuel) (hl : Latin1 (slice bs i stop))
    (hr : text.length + (output advance .empty (slice bs i stop)).length ≤ size) : FastAgrees i size
    text (decode8Loop bs stop fuel i text.length char (partString size text))
    (run advance .empty (slice bs i stop)) := by
  induction fuel using Nat.strong_induction_on generalizing i text with
  | _ fuel ih =>
  obtain rfl | hlt := Nat.eq_or_lt_of_le hi
  · have hd : decode8Loop bs i fuel i text.length char (partString size text) =
        .ok (.done accept char (partString size text) text.length) := by
      cases fuel <;> rw [decode8Loop, if_neg (Nat.lt_irrefl i)]
      rfl
    rw [slice_self, run_nil, hd]
    exact ⟨char, empty_holds char, by rw [List.append_nil]; rfl⟩
  · obtain _ | fuel := fuel
    · omega
    have hln : i < bs.length := by omega
    have hb := bs[i].toNat_lt
    have hl' := hl.succ hlt hst
    rw [slice_cons hlt hst] at hr hl ⊢
    rw [decode8Loop, if_pos hlt, byteAt_eq hln, ok_bind]
    by_cases ha : bs[i].toNat < 0x80
    · have had : advance .empty bs[i] = .ok (.empty, [UInt16.ofNat bs[i].toNat]) :=
        advance_ascii rfl ha
      rw [output_cons_ok had, length_append, length_singleton] at hr
      refine FastAgrees.cons had ?_
      rw [if_neg (by omega), writeIntoOneByteString, and_byte, writeIntoString_eq _ _ _ (by omega),
        ok_bind, show text.length + 1 = (text ++ [UInt16.ofNat bs[i].toNat]).length by simp]
      refine ih fuel (by omega) _ hlt (by omega) hl' ?_
      rw [length_append, length_singleton]
      omega
    · rw [if_pos (by omega)]
      by_cases hex : bs[i].toNat < 0xC0
      · have had : advance .empty bs[i] = .error .unexpectedExtension := by
          refine advance_error ?_
          rw [next, if_pos empty_phase, first, if_neg ha, if_pos hex]
        rw [if_pos hex, run_cons_error had]
        rfl
      · obtain ⟨c, hc, hlo, hhi⟩ : ∃ c, bs[i].toNat = 0xC0 + c ∧ 2 ≤ c ∧ c < 4 := by
          have hm := hl bs[i] mem_cons_self
          exact ⟨bs[i].toNat - 0xC0, by omega, by omega, by omega⟩
        have had := advance_latin1 hc hlo hhi
        rw [output_cons_ok had, nil_append] at hr
        refine FastAgrees.cons had ?_
        rw [if_neg hex, check_eq (by simp; omega), ok_bind, List.append_nil]
        by_cases hen : i + 1 = stop
        · have hlw : bs[i].toNat &&& 0x1F = c := by
            rw [show (0x1F : Nat) = 2 ^ 5 - 1 from rfl, Bits.and_low]
            omega
          rw [if_pos hen, hen, slice_self, run_nil, hlw]
          have hrn : c < 0x4400 := by omega
          exact ⟨c, ⟨⟨hlo, hrn⟩, fun _ => rfl⟩, by rw [List.append_nil]; rfl⟩
        · have hi' : i + 1 < stop := by omega
          rw [if_neg hen, hc]
          refine second_agrees hst hi' hhi (fun e he => (latin1_char c hhi hlo e he).2) hr
            fun unit hr => ?_
          rw [show text.length + 1 = (text ++ [unit]).length by simp]
          exact ih fuel (by omega) _ hi' (by omega) (hl'.succ hi' hst) hr

/-- **`decode8`** with enough room. -/
theorem decode8Run_agrees {d : Utf8Decoder} (hsp : stop ≤ bs.length) (hd : Carries d q)
    (hst : st < stop) (hl : Latin1 (slice bs st stop))
    (hq : q.phase = .accept ∨ q.phase = .x1 ∧ q.char < 4)
    (hr : (output advance q (slice bs st stop)).length ≤ size) : FastAgrees st size []
    (d.decode8Run bs st stop size) (run advance q (slice bs st stop)) := by
  unfold decode8Run
  rw [check_eq (decide_eq_true hst), ok_bind]
  rcases hq with ha | ⟨hx1, hc⟩
  · have hsa : d.state = accept := by rw [hd.state_eq, ha]; rfl
    have hem : run advance q (slice bs st stop) = run advance .empty (slice bs st stop) ∧
        output advance q (slice bs st stop) = output advance .empty (slice bs st stop) := by
      rw [slice_cons hst hsp]
      simp [run, output, advance_of_accept ha]
    rw [hem.2] at hr
    rw [hem.1, if_neg (by rw [hsa]; decide), hsa]
    exact decode8Loop_agrees hsp _ [] (Nat.le_of_lt hst) le_rfl hl
      (by rwa [length_nil, Nat.zero_add])
  · have hsa : d.state = X1 := by rw [hd.state_eq, hx1]; rfl
    have hch : d.charOrIndex = q.char := hd.holds.char_eq (by rw [hx1]; decide)
    have hlo : 2 ≤ q.char := by
      have hrn := hd.holds.inRange
      rw [Carry.InRange, hx1] at hrn
      exact hrn.1
    have hq : q = ⟨.x1, q.char⟩ := by rw [← hx1]
    rw [hq] at hr ⊢
    rw [if_pos hsa, check_eq (by simp; omega), ok_bind, hch]
    exact second_agrees hsp hst hc (fun e he => (latin1_char q.char hc hlo e he).1)
      (by rwa [length_nil, Nat.zero_add]) fun unit hr =>
        decode8Loop_agrees hsp _ [unit] hst (by omega) (hl.succ hst hsp) hr

end

end Convert.Utf8Decoder
