import DartSdk.Convert.Proof.Utf8Machine
import DartSdk.Lib.Slices

/-!
# `decodeGeneral` is the transducer

* `generalLoop_agrees`: the loop of `decodeGeneral` is a run of `step`, with its fast path for ASCII
  characters and its second look at the byte after an unfinished character.
* `decodeGeneral_agrees`: so is `decodeGeneral`.
-/

namespace Convert.Utf8Decoder

open Transducer Slices List

/-! ## Reading bytes -/

variable {bs w : List UInt8} {q : Carry} {b : UInt8} {ix : Nat} {buf : Text}
  {g : Except DecodeError General} {lax : Bool}

theorem byteAt_eq {i : Nat} (h : i < bs.length) : byteAt bs i = .ok bs[i].toNat := by
  simp only [byteAt, getElem?_eq_getElem h]

theorem check_eq {c : Bool} (h : c = true) : check c = .ok () := if_pos h

theorem and_byte (b : UInt8) : b.toNat &&& 0xFF = b.toNat :=
  (Bits.and_low b.toNat 8).trans (Nat.mod_eq_of_lt b.toNat_lt)

@[simp] theorem ok_bind {α β : Type} (a : α) (f : α → Except DecodeError β) :
    (Except.ok a >>= f) = f a := rfl

/-- The code units of ASCII characters. -/
def asciiUnits (w : List UInt8) : Text := w.map fun b => UInt16.ofNat b.toNat

theorem advance_ascii (hq : q.phase = .accept) (h : b.toNat < 0x80) :
    advance q b = .ok (.empty, [UInt16.ofNat b.toNat]) := by
  have hn : next q.phase b.toNat = .ok .accept := by
    rw [next, if_pos hq, first, if_pos h]
  have he : q.extend b.toNat = b.toNat := by
    rw [Carry.extend, if_pos hq, lead, if_pos h]
  rw [advance_accept hn, he, units, if_pos (by omega)]

theorem run_ascii (lax : Bool) (hw : ∀ b ∈ w, b.toNat < 0x80) :
    run (step lax) .empty w = .ok (.empty, asciiUnits w) := by
  induction w with
  | nil => rfl
  | cons b w ih =>
    have hb : advance .empty b = .ok (.empty, [UInt16.ofNat b.toNat]) :=
      advance_ascii rfl (hw b mem_cons_self)
    rw [run_cons_ok (step_of_advance lax hb), ih fun c hc => hw c (mem_cons_of_mem b hc)]
    rfl

theorem foldlM_writeCharCode (buf : Text) (hw : ∀ b ∈ w, b.toNat < 0x80) :
    w.foldlM (fun buf b => writeCharCode buf b.toNat) buf = .ok (buf ++ asciiUnits w) := by
  induction w generalizing buf with
  | nil => rw [asciiUnits, map_nil, List.append_nil]; rfl
  | cons b w ih =>
    have hb := hw b mem_cons_self
    rw [foldlM_cons, writeCharCode_eq buf (by omega), ok_bind,
      ih _ fun c hc => hw c (mem_cons_of_mem b hc), units, if_pos (by omega), append_assoc]
    rfl

theorem writeAscii_eq {i j : Nat} (buf : Text) (hij : i ≤ j)
    (hj : j ≤ bs.length) (h : ∀ b ∈ slice bs i j, b.toNat < 0x80) :
    writeAscii buf bs i j = .ok (buf ++ asciiUnits (slice bs i j)) := by
  unfold writeAscii
  split_ifs
  · obtain ⟨n, rfl⟩ := Nat.exists_eq_add_of_le hij
    rw [Nat.add_sub_cancel_left, foldlM_range' bs _ (fun buf b => writeCharCode buf b.toNat) _ _ _ hj
      (fun buf k hk _ _ => by rw [byteAt_eq hk, ok_bind])]
    exact foldlM_writeCharCode buf h
  · rw [asciiUnits, slice, drop_take]

/-- The loop over ASCII characters stops at the end or at the first other byte. -/
theorem asciiRun_eq {stop : Nat} (hst : stop ≤ bs.length) (fuel i byte : Nat)
    (hi : i ≤ stop) (hf : stop - i ≤ fuel) :
    ∃ m, i ≤ m ∧ m ≤ stop ∧ (∀ b ∈ slice bs i m, b.toNat < 0x80) ∧
      ((m = stop ∧ ∃ byte', asciiRun bs stop fuel i byte = .ok (stop, stop, byte')) ∨
        ∃ h : m < bs.length, m < stop ∧ 0x80 ≤ bs[m].toNat ∧
          asciiRun bs stop fuel i byte = .ok (m, m + 1, bs[m].toNat)) := by
  induction fuel generalizing i byte with
  | zero =>
    obtain rfl : i = stop := by omega
    refine ⟨i, Nat.le_refl i, Nat.le_refl i, by simp, .inl ⟨rfl, byte, ?_⟩⟩
    rw [asciiRun, if_neg (Nat.lt_irrefl i)]
  | succ fuel ih =>
    obtain rfl | hlt := Nat.eq_or_lt_of_le hi
    · refine ⟨i, Nat.le_refl i, Nat.le_refl i, by simp, .inl ⟨rfl, byte, ?_⟩⟩
      rw [asciiRun, if_neg (Nat.lt_irrefl i)]
      rfl
    have hl : i < bs.length := by omega
    by_cases hb : bs[i].toNat ≥ 128
    · refine ⟨i, Nat.le_refl i, hi, by simp, .inr ⟨hl, hlt, hb, ?_⟩⟩
      rw [asciiRun, if_pos hlt, byteAt_eq hl, ok_bind, if_pos hb]
      rfl
    obtain ⟨m, him, hm, ha, hr⟩ := ih (i + 1) bs[i].toNat hlt (by omega)
    refine ⟨m, by omega, hm, ?_, ?_⟩
    · rw [slice_cons (by omega) (by omega)]
      intro b hme
      rcases mem_cons.1 hme with rfl | hme
      · omega
      · exact ha b hme
    · rw [asciiRun, if_pos hlt, byteAt_eq hl, ok_bind, if_neg hb]
      exact hr

/-! ## The loop -/

/-- The decoder holds the unfinished character `q`. -/
structure Carry.Holds (q : Carry) (char : Nat) : Prop where
  inRange : q.InRange
  char_eq : q.phase ≠ .accept → char = q.char

theorem empty_holds (char : Nat) : Carry.Holds .empty char :=
  ⟨empty_inRange, fun h => absurd rfl h⟩

/-- What the loop does from `index` on with text in the buffer, by the run from there. -/
def Agrees (ix : Nat) (buf : Text) (g : Except DecodeError General) :
    Except (Malformation × Nat) (Carry × Text) → Prop
  | .ok (q, out) => ∃ char, q.Holds char ∧ g = .ok (.done q.phase.code char (buf ++ out))
  | .error (m, k) => g = .ok (.failed m.code (ix + k))

theorem Agrees.append {out : Text} {q' : Carry} {v : List UInt8}
    (hv : run (step lax) q v = .ok (q', out))
    (h : Agrees (ix + v.length) (buf ++ out) g (run (step lax) q' w)) :
    Agrees ix buf g (run (step lax) q (v ++ w)) := by
  rw [run_append_ok hv]
  cases hw : run (step lax) q' w with
  | ok p =>
    obtain ⟨q'', out'⟩ := p
    rw [hw] at h
    obtain ⟨char, hc, hg⟩ := h
    exact ⟨char, hc, by rw [hg, append_assoc]⟩
  | error p =>
    rw [hw] at h
    simp only [Agrees] at h ⊢
    rw [h, Nat.add_assoc]

theorem Agrees.cons {out : Text} {q' : Carry} (hb : step lax q b = .ok (q', out))
    (h : Agrees (ix + 1) (buf ++ out) g (run (step lax) q' w)) :
    Agrees ix buf g (run (step lax) q (b :: w)) :=
  Agrees.append (run_singleton hb) h

/-- No byte is missing when no character was begun. -/
theorem first_ne_missing {byte : Nat} : first byte ≠ .error .missingExtension := by
  fun_cases first byte <;> simp

/-- The byte after an unfinished character is parsed again. -/
theorem step_missing (h : advance q b = .error .missingExtension) :
    ∃ q' out, step true .empty b = .ok (q', out) ∧ step true q b = .ok (q', replacement :: out) := by
  cases hb : advance .empty b with
  | ok p =>
    refine ⟨p.1, p.2, step_of_advance true hb, ?_⟩
    simp only [step, h, hb, Bool.not_true, Bool.false_eq_true, if_false, if_true]
    rfl
  | error m =>
    have hm : m ≠ .missingExtension := by
      rintro rfl
      cases hn : next .accept b.toNat with
      | ok phase =>
        by_cases hp : phase = .accept
        · subst hp; rw [advance_accept hn] at hb; cases hb
        · rw [advance_incomplete hn hp] at hb; cases hb
      | error m =>
        rw [advance_error hn] at hb
        cases hb
        exact first_ne_missing hn
    refine ⟨.empty, m.replaced, ?_, ?_⟩
    · simp [step, hb, hm]
    · simp only [step, h, hb, Bool.not_true, Bool.false_eq_true, if_false, if_true]
      rfl

theorem Agrees.reparse (hb : advance q b = .error .missingExtension)
    (h : Agrees ix (buf ++ [replacement]) g (run (step true) .empty (b :: w))) :
    Agrees ix buf g (run (step true) q (b :: w)) := by
  obtain ⟨q', out, he, hq⟩ := step_missing hb
  rw [run_cons_ok he] at h
  rw [run_cons_ok hq]
  cases hw : run (step true) q' w with
  | ok p =>
    simp only [hw, Agrees] at h ⊢
    simpa using h
  | error p =>
    simp only [hw, Agrees] at h ⊢
    exact h

/-- What `replaceError` writes and where it goes on. -/
theorem replaceError_eq (buf : Text) (m : Malformation) (i : Nat) :
    replaceError buf m.code i =
      .ok (buf ++ m.replaced, if m = .missingExtension then i - 1 else i) := by
  have hw : ∀ text, writeCharCode text unicodeReplacementCharacterRune =
      .ok (text ++ [replacement]) := fun text => writeCharCode_eq text (by decide)
  have ht : buf ++ [replacement] ++ [replacement] = buf ++ [replacement, replacement] := by
    rw [append_assoc]; rfl
  unfold replaceError
  cases m <;> simp only [hw, ok_bind, ht] <;> rfl

theorem step_replaced {m : Malformation} (h : advance q b = .error m) (hm : m ≠ .missingExtension) :
    step true q b = .ok (.empty, m.replaced) := by
  simp [step, h, hm]

section

variable {stop st : Nat} {d : Utf8Decoder}

/-- **The loop of `decodeGeneral`** at a byte. Each byte takes at most two iterations, and one when no
character was begun. -/
theorem generalLoop_agrees (hsp : stop ≤ bs.length) (fuel : Nat) {char p : Nat} (buf : Text)
    (hq : q.Holds char) (hl : p < bs.length) (hp : p < stop)
    (hf : 2 * (stop - p) ≤ fuel + if q.phase = .accept then 1 else 0) :
    Agrees p buf (generalLoop lax bs stop fuel q.phase.code char (p + 1) bs[p].toNat buf)
      (run (step lax) q (slice bs p stop)) := by
  induction fuel generalizing q char p buf with
  | zero => split_ifs at hf <;> omega
  | succ fuel ih =>
    have hb := bs[p].toNat_lt
    rw [generalLoop, byteType_eq hb, ok_bind, transition_eq q.phase hb, ok_bind, slice_cons hp hsp]
    -- where the loop goes on at the next byte
    have hnx : ∀ (q' : Carry) (char' : Nat) (out : Text), q'.Holds char' →
        step lax q bs[p] = .ok (q', out) →
        Agrees p buf
          (if p + 1 = stop then pure (General.done q'.phase.code char' (buf ++ out)) else
            byteAt bs (p + 1) >>= fun byte =>
              generalLoop lax bs stop fuel q'.phase.code char' (p + 1 + 1) byte (buf ++ out))
          (run (step lax) q (bs[p] :: slice bs (p + 1) stop)) := by
      intro q' char' out hq' hst
      refine Agrees.cons hst ?_
      by_cases he : p + 1 = stop
      · rw [if_pos he, he, slice_self, run_nil]
        exact ⟨char', hq', by rw [List.append_nil]; rfl⟩
      · rw [if_neg he, byteAt_eq (by omega), ok_bind]
        refine ih (buf ++ out) hq' (by omega) (by omega) ?_
        split_ifs at hf ⊢ <;> omega
    cases hn : next q.phase bs[p].toNat with
    | error m =>
      have had : advance q bs[p] = .error m := advance_error hn
      simp only [codeOf, malformation_ne_accept, if_false, isErrorState_malformation, if_true]
      cases lax with
      | false =>
        have hst : step false q bs[p] = .error m := by rw [step_false, had]
        rw [run_cons_error hst]
        rfl
      | true =>
        simp only [if_true, replaceError_eq, ok_bind]
        by_cases hm : m = .missingExtension
        · subst hm
          have hph : q.phase ≠ .accept := by
            intro hac
            rw [hac] at hn
            exact first_ne_missing hn
          refine Agrees.reparse had ?_
          rw [← slice_cons hp hsp]
          simp only [if_true, Nat.add_sub_cancel, Nat.ne_of_lt hp, if_false, byteAt_eq hl, ok_bind]
          refine ih _ (empty_holds _) hl hp ?_
          rw [if_neg hph] at hf
          simp only [Carry.empty, if_true]
          omega
        · simp only [hm, if_false]
          exact hnx .empty _ _ (empty_holds _) (step_replaced had hm)
    | ok phase =>
      have hch := extend_eq hb hq.char_eq hn
      simp only [hch, codeOf, isErrorState_phase]
      by_cases hac : phase = .accept
      · subst hac
        have had := advance_accept hn
        have hlt := (extend_inRange hb hq.inRange hn).2 rfl
        refine Agrees.cons (step_of_advance lax had) ?_
        simp only [show Phase.code .accept = accept from rfl, if_true, writeCharCode_eq buf hlt,
          ok_bind]
        by_cases he : p + 1 = stop
        · rw [if_pos he, he, slice_self, run_nil]
          exact ⟨_, empty_holds _, by rw [List.append_nil]; rfl⟩
        have hl' : p + 1 < bs.length := by omega
        rw [if_neg he, byteAt_eq hl', ok_bind]
        by_cases ha : bs[p + 1].toNat < 128
        · obtain ⟨m, hpm, hm, hr, hrs⟩ := asciiRun_eq hsp (stop - (p + 1)) (p + 1 + 1)
            bs[p + 1].toNat (by omega) (by omega)
          -- the ASCII characters are those up to `m`
          have hal : ∀ b ∈ slice bs (p + 1) m, b.toNat < 0x80 := by
            rw [slice_cons (by omega) (by omega)]
            intro b hme
            rcases mem_cons.1 hme with rfl | hme
            · exact ha
            · exact hr b hme
          have hw := writeAscii_eq (buf ++ units (q.extend bs[p].toNat))
            (by omega) (by omega) hal
          have hc := check_eq (decide_eq_true (by omega : p + 1 < m))
          rw [if_pos ha, ← slice_append (by omega) hm hsp]
          refine Agrees.append (run_ascii lax hal) ?_
          rw [slice_length (by omega), show p + 1 + (m - (p + 1)) = m by omega]
          rcases hrs with ⟨rfl, byte', hrn⟩ | ⟨hml, hmt, -, hrn⟩
          · simp only [hrn, ok_bind, hc, hw, if_true, slice_self, run_nil]
            exact ⟨_, empty_holds _, by rw [List.append_nil]; rfl⟩
          · simp only [hrn, ok_bind, hc, hw, Nat.ne_of_lt hmt, if_false]
            refine ih _ (empty_holds _) hml hmt ?_
            split_ifs at hf ⊢ <;> omega
        · rw [if_neg ha]
          refine ih _ (empty_holds _) hl' (by omega) ?_
          split_ifs at hf ⊢ <;> omega
      · have hne : phase.code ≠ accept := fun h => hac (code_eq_accept.1 h)
        simp only [hne, if_false, Bool.false_eq_true]
        have hst := step_of_advance lax (advance_incomplete hn hac)
        have hhl : Carry.Holds ⟨phase, q.extend bs[p].toNat⟩ (q.extend bs[p].toNat) :=
          ⟨(extend_inRange hb hq.inRange hn).1, fun _ => rfl⟩
        have hg := hnx _ _ _ hhl hst
        rw [List.append_nil] at hg
        exact hg

/-! ## `decodeGeneral` -/

/-- The decoder holds the unfinished character `q`. -/
structure Carries (d : Utf8Decoder) (q : Carry) : Prop where
  state_eq : d.state = q.phase.code
  holds : q.Holds d.charOrIndex

theorem generalLoop_run (hst : stop ≤ bs.length) (hd : Carries d q)
    (hl : st < bs.length) (hsr : st < stop) :
    Agrees st []
      (generalLoop d.allowMalformed bs stop (2 * (stop - st)) d.state d.charOrIndex (st + 1)
        bs[st].toNat []) (run (step d.allowMalformed) q (slice bs st stop)) := by
  rw [hd.state_eq]
  exact generalLoop_agrees hst _ [] hd.holds hl hsr (by omega)

/-- **`decodeGeneral`** of a part of the input. -/
theorem decodeGeneral_agrees (hst : stop ≤ bs.length) (hd : Carries d q)
    (hsr : st < stop) :
    match run (step d.allowMalformed) q (slice bs st stop) with
    | .ok (q', out) => ∃ char, Carries { d with state := q'.phase.code, charOrIndex := char } q' ∧
        d.decodeGeneral bs st stop false =
          .ok ({ d with state := q'.phase.code, charOrIndex := char }, out)
    | .error (m, k) => d.decodeGeneral bs st stop false =
        .ok ({ d with state := m.code, charOrIndex := st + k }, []) := by
  have hln : st < bs.length := by omega
  have hl := generalLoop_run hst hd hln hsr
  unfold decodeGeneral
  rw [byteAt_eq hln, ok_bind]
  cases hr : run (step d.allowMalformed) q (slice bs st stop) with
  | error p =>
    rw [hr] at hl
    simp only [Agrees] at hl
    simp only [hl, ok_bind]
    rfl
  | ok p =>
    rw [hr] at hl
    obtain ⟨char, hc, hg⟩ := hl
    refine ⟨char, ⟨rfl, hc⟩, ?_⟩
    simp only [hg, ok_bind, nil_append, Bool.false_and, Bool.false_eq_true, if_false]
    rfl

/-- What `decodeGeneral` should do with the whole input up to `stop`: the end also ends an unfinished
character. -/
def DecodesSingle (d : Utf8Decoder) (stop ix : Nat)
    (result : Except DecodeError (Utf8Decoder × Text)) :
    Except (Malformation × Nat) (Carry × Text) → Prop
  | .ok (q, out) =>
    if q.phase = .accept ∨ d.allowMalformed then
      ∃ char, result = .ok ({ d with state := q.phase.code, charOrIndex := char },
        if q.phase = .accept then out else out ++ [replacement])
    else result = .ok ({ d with state := errorUnfinished, charOrIndex := stop }, [])
  | .error (m, k) => result = .ok ({ d with state := m.code, charOrIndex := ix + k }, [])

/-- **`decodeGeneral`** of the whole input. -/
theorem decodeGeneral_single {ix : Nat} (hln : st < bs.length)
    {r : Except (Malformation × Nat) (Carry × Text)}
    (hl : Agrees ix [] (generalLoop d.allowMalformed bs stop (2 * (stop - st)) d.state
      d.charOrIndex (st + 1) bs[st].toNat []) r) :
    DecodesSingle d stop ix (d.decodeGeneral bs st stop true) r := by
  unfold decodeGeneral
  rw [byteAt_eq hln, ok_bind]
  cases r with
  | error p =>
    simp only [Agrees] at hl
    simp only [hl, ok_bind]
    rfl
  | ok p =>
    obtain ⟨q', out⟩ := p
    obtain ⟨char, hc, hg⟩ := hl
    simp only [hg, ok_bind, nil_append, Bool.true_and]
    by_cases ha : q'.phase = .accept
    · simp only [DecodesSingle, ha, true_or, if_true]
      exact ⟨char, rfl⟩
    have hgt : q'.phase.code > afterBom := Nat.lt_of_not_le fun h => ha (code_le_afterBom.1 h)
    have hw : writeCharCode out unicodeReplacementCharacterRune = .ok (out ++ [replacement]) :=
      writeCharCode_eq out (by decide)
    simp only [DecodesSingle, ha, false_or, if_false, hgt, decide_true, if_true, hw, ok_bind]
    split_ifs with hm
    · exact ⟨char, by rw [hm]; rfl⟩
    · rfl

end

end Convert.Utf8Decoder
