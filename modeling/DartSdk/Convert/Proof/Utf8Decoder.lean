import DartSdk.Convert.Proof.Utf8Scan
import Mathlib.Tactic.IntervalCases

/-!
# The chunked UTF-8 decoder

* `convertScanned_spec`, `convertFrom_spec`: a call of `convertChunked` that has passed the byte order
  mark is a run of the transducer, whichever decoder does it.
-/

namespace Convert.Utf8Decoder

open Transducer Slices List

/-! ## The monad of the conversions -/

section

variable {α β : Type}

@[simp] theorem lift_ok_bind (a : α) (f : α → DecoderM β) (d : Utf8Decoder) :
    (lift (.ok a) >>= f) d = f a d := rfl

@[simp] theorem lift_ok (a : α) (d : Utf8Decoder) : lift (.ok a) d = .ok a d := rfl

@[simp] theorem get_bind (f : Utf8Decoder → DecoderM β) (d : Utf8Decoder) :
    ((get : DecoderM Utf8Decoder) >>= f) d = f d d := rfl

@[simp] theorem set_bind (d' : Utf8Decoder) (f : PUnit → DecoderM β) (d : Utf8Decoder) :
    ((set d' : DecoderM PUnit) >>= f) d = f ⟨⟩ d' := rfl

@[simp] theorem modify_bind (g : Utf8Decoder → Utf8Decoder) (f : PUnit → DecoderM β)
    (d : Utf8Decoder) : ((modify g : DecoderM PUnit) >>= f) d = f ⟨⟩ (g d) := rfl

end

/-! ## Runs with and without replacement -/

variable {w bs : List UInt8} {d' d : Utf8Decoder}

theorem run_step_of_advance (lax : Bool) {q : Carry} {q' : Carry}
    {out : Text} (h : run advance q w = .ok (q', out)) : run (step lax) q w = .ok (q', out) := by
  induction w generalizing q out with
  | nil => exact h
  | cons b w ih =>
    obtain ⟨q1, out1, out2, hs, hr, rfl⟩ := run_cons_eq_ok h
    rw [run_cons_ok (step_of_advance lax hs), ih hr]

theorem run_step_false (q : Carry) (w : List UInt8) : run (step false) q w = run advance q w := by
  rw [show step false = advance from funext fun q => funext fun b => step_false q b]

theorem step_true (q : Carry) (b : UInt8) : ∃ q' out, step true q b = .ok (q', out) := by
  cases h : advance q b with
  | ok p => exact ⟨p.1, p.2, step_of_advance true h⟩
  | error m =>
    by_cases hm : m = .missingExtension
    · subst hm
      obtain ⟨q', out, -, hq⟩ := step_missing h
      exact ⟨q', _, hq⟩
    · exact ⟨_, _, step_replaced h hm⟩

theorem run_step_true (q : Carry) (w : List UInt8) :
    ∃ q' out, run (step true) q w = .ok (q', out) := by
  induction w generalizing q with
  | nil => exact ⟨q, [], rfl⟩
  | cons b w ih =>
    obtain ⟨q1, out1, hs⟩ := step_true q b
    obtain ⟨q2, out2, hr⟩ := ih q1
    exact ⟨q2, out1 ++ out2, by rw [run_cons_ok hs, hr]⟩

/-! ## ASCII characters only -/

theorem totalSize_ascii (hw : ∀ b ∈ w, b.toNat < 0x80) : totalSize w = w.length := by
  induction w with
  | nil => rfl
  | cons b w ih =>
    rw [totalSize_cons, byteSize, if_pos (hw b mem_cons_self),
      ih fun c hc => hw c (mem_cons_of_mem b hc), length_cons, Nat.add_comm]

variable {size stop st len eo st' k : Nat}

theorem copyRange_eq (st n : Nat) (hn : st + n ≤ bs.length) (hsz : n ≤ size) : copyRange bs
    (allocateString size) st 0 n = .ok (partString size (asciiUnits (slice bs st (st + n)))) := by
  induction n with
  | zero => simp [copyRange, asciiUnits]; rfl
  | succ n ih =>
    have hl : st + n < bs.length := by omega
    have hc : (asciiUnits (slice bs st (st + n))).length = n := by
      rw [asciiUnits, length_map, slice_length (by omega)]
      omega
    have hw := writeIntoString_eq size (asciiUnits (slice bs st (st + n)))
      (UInt16.ofNat bs[st + n].toNat) (by omega)
    rw [hc] at hw
    have ih := ih (by omega) (by omega)
    unfold copyRange at ih ⊢
    rw [range_succ, foldlM_append, ih, ok_bind, foldlM_cons, byteAt_eq hl, ok_bind,
      writeIntoOneByteString, and_byte, Nat.zero_add, hw, ← Nat.add_assoc,
      slice_snoc (Nat.le_add_right st n) hl, asciiUnits, asciiUnits, map_append]
    rfl

/-! ## One call -/

/-- A decoder that holds the unfinished character `q` and is otherwise as `d`. -/
structure Continues (d : Utf8Decoder) (q : Carry) (d' : Utf8Decoder) : Prop where
  carries : Carries d' q
  allowMalformed_eq : d'.allowMalformed = d.allowMalformed
  bomIndex_eq : d'.bomIndex = d.bomIndex

/-- The result of a call with the decoder `d`, by a run over bytes from an offset on. -/
def Converts (d : Utf8Decoder) (offset : Nat) (r : EStateM.Result DecodeError Utf8Decoder Text) :
    Except (Malformation × Nat) (Carry × Text) → Prop
  | .ok (q, out) => ∃ d', r = .ok out d' ∧ Continues d q d'
  | .error (m, k) => ∃ d', r =
      .error (.formatException (errorDescription m.code) (some (offset + k))) d'

section

variable {q : Carry} {st stop : Nat}

/-- The fast decoder that the flags choose, before its assertion on the size. -/
def fastRun (d : Utf8Decoder) (bs : List UInt8) (st stop size flags : Nat) :
    Except DecodeError Fast :=
  if flags = flagLatin1 ||| flagExtension then d.decode8Run bs st stop size
  else d.decode16Run bs st stop size

theorem fastRun_agrees (hst : stop ≤ bs.length) (hd : Carries d q) (hsr : st < stop)
    (hr : (output advance q (slice bs st stop)).length ≤ size) : FastAgrees st size []
    (d.fastRun bs st stop size (flagsOf (slice bs st stop) ||| q.flag))
    (run advance q (slice bs st stop)) := by
  unfold fastRun
  split_ifs with hf
  · obtain ⟨hl, hq⟩ := latin1_of_flags hf
    exact decode8Run_agrees hst hd hsr hl hq hr
  · exact decode16Run_agrees hst hd hsr hr

theorem fastRun_finish (size fl : Nat) :
    (if fl = flagLatin1 ||| flagExtension then d.decode8 bs st stop size
      else d.decode16 bs st stop size) = d.fastRun bs st stop size fl >>= d.finishFast size := by
  unfold fastRun
  split_ifs <;> rfl

/-- After an error of a fast decoder the part is decoded again by `decodeGeneral`. -/
theorem afterFast_malformed {text : Text} (m : Malformation) (eo k : Nat)
    (hb : d.bomIndex = -1) (hmd : d.allowMalformed = true)
    (hdc : d.decodeGeneral bs st stop false = .ok (d', text))
    (hst : isErrorState d'.state = false) :
    afterFast d bs eo st stop [] { d with state := m.code, charOrIndex := k } = .ok text d' := by
  obtain ⟨allowMalformed, state, charOrIndex, scanFlags, bomIndex⟩ := d
  subst hb hmd
  simp [afterFast, check, hdc, hst]
  rfl

theorem afterFast_strict (m : Malformation) (eo k : Nat) (hb : d.bomIndex = -1)
    (hmd : d.allowMalformed = false) :
    ∃ d', afterFast d bs eo st stop [] { d with state := m.code, charOrIndex := k } =
      .error (.formatException (errorDescription m.code) (some (eo + k))) d' := by
  obtain ⟨allowMalformed, state, charOrIndex, scanFlags, bomIndex⟩ := d
  subst hb hmd
  exact ⟨⟨false, initial, k, scanFlags, -1⟩, by simp [afterFast, check]; rfl⟩

/-- **A scanned part** is decoded as the run says, by the fast decoders or by `decodeGeneral`. -/
theorem convertScanned_spec (eo : Nat) (hst : stop ≤ bs.length) (hd : Carries d q)
    (hsr : st < stop)
    (hb : d.bomIndex = -1 ∨
      d.bomIndex ≠ 0 ∧ ∃ q' out, run advance q (slice bs st stop) = .ok (q', out)) :
    Converts d (eo + st)
      (convertScanned bs eo st stop (totalSize (slice bs st stop) + q.reachable (stop - st))
        (flagsOf (slice bs st stop) ||| q.flag) d)
      (run (step d.allowMalformed) q (slice bs st stop)) := by
  unfold convertScanned
  rw [get_bind]
  by_cases hfl : flagsOf (slice bs st stop) ||| q.flag = 0
  · -- ASCII characters only
    obtain ⟨hac, ha⟩ := ascii_of_flags hfl
    have hsa : d.state = accept := by rw [hd.state_eq, hac]; rfl
    have hsz : totalSize (slice bs st stop) + q.reachable (stop - st) = stop - st := by
      rw [totalSize_ascii ha, slice_length hst, Carry.reachable, pending_eq_zero hac, ite_self,
        Nat.add_zero]
    have hrn : run (step d.allowMalformed) q (slice bs st stop) =
        .ok (.empty, asciiUnits (slice bs st stop)) := by
      rw [← run_ascii d.allowMalformed ha, slice_cons hsr hst]
      simp only [run, step_of_accept d.allowMalformed hac]
    have hc := copyRange_eq st (stop - st) (by omega : st + (stop - st) ≤ bs.length)
      (Nat.le_refl (stop - st))
    rw [show st + (stop - st) = stop by omega] at hc
    have hr : readString (partString (stop - st) (asciiUnits (slice bs st stop))) =
        .ok (asciiUnits (slice bs st stop)) := by
      have hl : (asciiUnits (slice bs st stop)).length = stop - st := by
        rw [asciiUnits, length_map, slice_length hst]
      rw [← hl]
      exact readString_partString
    rw [if_pos hfl, hrn, hsz]
    refine ⟨d, ?_, ⟨hsa, empty_holds _⟩, rfl, rfl⟩
    simp [check, hsa, hc, hr]
  · obtain ⟨size, hdr, hrm, hfu⟩ := dropIncomplete_spec hd.holds.inRange hst (Nat.le_of_lt hsr)
    have hf := fastRun_agrees hst hd hsr hrm
    rw [if_neg hfl, hdr, lift_ok_bind, fastRun_finish]
    cases hrn : run advance q (slice bs st stop) with
    | ok p =>
      obtain ⟨q', out⟩ := p
      rw [hrn] at hf
      obtain ⟨char, hch, hdn⟩ := hf
      rw [nil_append, hfu q' out hrn] at hdn
      have hb' : d.bomIndex ≠ 0 := by
        rcases hb with hb | ⟨hb, -⟩
        · rw [hb]; decide
        · exact hb
      have hfn : d.finishFast size (.done q'.phase.code char (partString size out) size) =
          .ok ({ d with state := q'.phase.code, charOrIndex := char }, partString size out) := by
        simp [finishFast, check, hb', pure, Except.pure]
      have hr : readString (partString size out) = .ok out := by
        rw [← hfu q' out hrn]
        exact readString_partString
      rw [hdn, ok_bind, hfn, lift_ok_bind, run_step_of_advance _ hrn]
      refine ⟨{ d with state := q'.phase.code, charOrIndex := char }, ?_, ⟨rfl, hch⟩, rfl, rfl⟩
      simp [afterFast, hr]
    | error p =>
      obtain ⟨m, k⟩ := p
      rw [hrn] at hf
      have hb' : d.bomIndex = -1 := by
        rcases hb with hb | ⟨-, q', out, hok⟩
        · exact hb
        · rw [hrn] at hok
          cases hok
      have hfn : d.finishFast size (.failed m.code (st + k)) =
          .ok ({ d with state := m.code, charOrIndex := st + k }, []) := rfl
      rw [hf, ok_bind, hfn, lift_ok_bind]
      dsimp only
      rw [set_bind]
      rcases Bool.eq_false_or_eq_true d.allowMalformed with hmd | hmd
      · obtain ⟨q', out, hok⟩ := run_step_true q (slice bs st stop)
        rw [← hmd] at hok
        have hg := decodeGeneral_agrees hst hd hsr
        rw [hok] at hg
        obtain ⟨char, hcr, hdc⟩ := hg
        rw [hok]
        exact ⟨_, afterFast_malformed m eo _ hb' hmd hdc (isErrorState_phase _), hcr, rfl, rfl⟩
      · rw [show step d.allowMalformed = step false by rw [hmd], run_step_false, hrn]
        obtain ⟨d', hd'⟩ := afterFast_strict m eo (st + k) hb' hmd
        exact ⟨d', by rw [Nat.add_assoc]; exact hd'⟩

/-- **What follows the byte order mark** is decoded as the run says. -/
theorem convertFrom_spec (eo : Nat) (hst : stop ≤ bs.length) (hd : Carries d q)
    (hsr : st ≤ stop)
    (hb : st < stop → d.bomIndex = -1 ∨
      d.bomIndex ≠ 0 ∧ ∃ q' out, run advance q (slice bs st stop) = .ok (q', out)) :
    Converts d (eo + st) (convertFrom bs eo st stop d)
      (run (step d.allowMalformed) q (slice bs st stop)) := by
  unfold convertFrom
  obtain rfl | hlt := Nat.eq_or_lt_of_le hsr
  · rw [if_pos rfl, slice_self, run_nil]
    exact ⟨d, rfl, hd, rfl, rfl⟩
  rw [if_neg (Nat.ne_of_lt hlt), scan_eq hst hsr, lift_ok_bind]
  dsimp only
  rw [modify_bind, get_bind]
  have hd' : Carries { d with scanFlags := flagsOf (slice bs st stop) } q := ⟨hd.state_eq, hd.holds⟩
  rw [addCarryOver_eq hd' (by omega)]
  have hsp := convertScanned_spec eo hst hd' hlt (hb hlt)
  cases hrn : run (step d.allowMalformed) q (slice bs st stop) with
  | error p =>
    rw [hrn] at hsp
    exact hsp
  | ok p =>
    rw [hrn] at hsp
    obtain ⟨d', hr, hc, ham, hbi⟩ := hsp
    exact ⟨d', hr, hc, ham, hbi⟩

end

/-! ## The byte order mark -/

def bom : List UInt8 := [0xEF, 0xBB, 0xBF]

/-- The unfinished character after the first bytes of a byte order mark. -/
def bomCarry : Nat → Carry
  | 0 => .empty
  | 1 => ⟨.x2, 0xF⟩
  | _ => ⟨.x1, 0x3FB⟩

theorem run_bom (k n : Nat) (h : k + n < 3) :
    run advance (bomCarry k) ((bom.drop k).take n) = .ok (bomCarry (k + n), []) := by
  have hk : k < 3 := by omega
  have hn : n < 3 := by omega
  interval_cases k <;> interval_cases n <;> first | omega | rfl

/-- The loop of `skipBomChunked`: the mark is complete, unfinished or not there. -/
theorem skipBomLoop_eq (d : Utf8Decoder) (st : Nat)
    (hst : stop ≤ bs.length) (fuel k i : Nat) (hk : k ≤ 3) (hf : 3 - k < fuel)
    (hi : i ≤ stop) :
    (∃ w, slice bs i stop = bom.drop k ++ w ∧
      skipBomLoop d bs st stop fuel k i =
        .ok ({ d with bomIndex := -1, state := initial }, i + (3 - k))) ∨
    (∃ r, r ≠ [] ∧ bom.drop k = slice bs i stop ++ r ∧
      skipBomLoop d bs st stop fuel k i =
        .ok ({ d with bomIndex := ((k + (stop - i) : Nat) : Int) }, st)) ∨
    ((∀ v, ¬bom.drop k <+: slice bs i stop ++ v) ∧
      skipBomLoop d bs st stop fuel k i = .ok ({ d with bomIndex := -1 }, st)) := by
  induction fuel generalizing k i with
  | zero => omega
  | succ fuel ih =>
    rw [skipBomLoop]
    by_cases hk3 : k < 3
    · rw [if_pos hk3]
      obtain ⟨v, hv, hdr⟩ : ∃ v : UInt8, codeUnitAt bomValues k = .ok v.toNat ∧
          bom.drop k = v :: bom.drop (k + 1) := by
        interval_cases k
        · exact ⟨0xEF, rfl, rfl⟩
        · exact ⟨0xBB, rfl, rfl⟩
        · exact ⟨0xBF, rfl, rfl⟩
      obtain rfl | hlt := Nat.eq_or_lt_of_le hi
      · rw [if_pos rfl, slice_self, Nat.sub_self]
        exact .inr (.inl ⟨bom.drop k, by rw [hdr]; simp, rfl, rfl⟩)
      have hl : i < bs.length := by omega
      rw [if_neg (Nat.ne_of_lt hlt), byteAt_eq hl, ok_bind, hv, ok_bind, slice_cons hlt hst, hdr]
      by_cases heq : bs[i] = v
      · rw [if_neg (by rw [heq]; simp)]
        have hn := ih (k + 1) (i + 1) hk3 (by omega) hlt
        rw [show i + 1 + (3 - (k + 1)) = i + (3 - k) by omega,
          show k + 1 + (stop - (i + 1)) = k + (stop - i) by omega] at hn
        rcases hn with ⟨w, hw, hrs⟩ | ⟨r, hr, hw, hrs⟩ | ⟨hno, hrs⟩
        · exact .inl ⟨w, by rw [hw, heq]; rfl, hrs⟩
        · exact .inr (.inl ⟨r, hr, by rw [hw, heq]; rfl, hrs⟩)
        · refine .inr (.inr ⟨fun u hu => hno u ?_, hrs⟩)
          rw [heq, cons_append, prefix_cons_inj] at hu
          exact hu
      · have hne : bs[i].toNat ≠ v.toNat := fun h => heq (UInt8.toNat_inj.1 h)
        rw [if_pos hne]
        refine .inr (.inr ⟨fun u hu => ?_, rfl⟩)
        rw [cons_append, cons_prefix_cons] at hu
        exact heq hu.1.symm
    · obtain rfl : k = 3 := by omega
      rw [if_neg hk3]
      exact .inl ⟨slice bs i stop, rfl, rfl⟩

/-! ## `convertGeneral` -/

theorem convertGeneral_eq {single : Bool} {text : Text} (hst : st < w.length)
    (h : d.decodeGeneral w st w.length single = .ok (d', text)) : convertGeneral (.uint8List w) st
    none single d = if isErrorState d'.state then .error
    (.formatException (errorDescription d'.state) (some d'.charOrIndex))
    { d' with state := initial } else .ok text d' := by
  have hr : checkValidRange st none w.length = some w.length := by
    rw [checkValidRange, if_neg (Nat.not_lt.2 (Nat.le_of_lt hst))]
  unfold convertGeneral rangeEnd
  simp only [CodeUnits.length, hr, pure_bind, Nat.ne_of_lt hst, if_false, haveBytes, get_bind, h,
    lift_ok_bind, set_bind, Nat.zero_add]
  split_ifs <;> rfl

theorem convertGeneral_empty (d : Utf8Decoder) (w : List UInt8) (single : Bool) :
    convertGeneral (.uint8List w) w.length none single d = .ok [] d := by
  unfold convertGeneral rangeEnd
  simp [CodeUnits.length, checkValidRange]
  rfl

/-! ## One chunk -/

theorem checkValidRange_le {maybeEnd : Option Nat}
    (h : checkValidRange st maybeEnd len = some stop) : st ≤ stop ∧ stop ≤ len := by
  unfold checkValidRange at h
  split_ifs at h with hst
  cases maybeEnd with
  | none => cases h; omega
  | some stop' =>
    simp only [Bool.or_eq_true, decide_eq_true_eq] at h
    split_ifs at h
    cases h
    omega

/-- The bytes of a chunk as the conversions read them. -/
theorem haveBytes_spec (c : Chunk) :
    ∃ bs errorOffset st stop, haveBytes c.codeUnits c.start c.stop = (bs, errorOffset, st, stop) ∧
      st ≤ stop ∧ stop ≤ bs.length ∧ errorOffset + st = c.start ∧ c.bytes = slice bs st stop := by
  obtain ⟨hsr, hst⟩ := checkValidRange_le c.valid
  obtain ⟨codeUnits, st, maybeEnd, stop, valid⟩ := c
  cases codeUnits with
  | uint8List bs => exact ⟨bs, 0, st, stop, rfl, hsr, hst, Nat.zero_add _, rfl⟩
  | list units =>
    refine ⟨makeUint8List units st stop, st, 0, stop - st, rfl, Nat.zero_le _, ?_, rfl, rfl⟩
    simp only [makeUint8List, length_map, length_take, length_drop]
    exact Nat.le_min.2 ⟨le_rfl, Nat.sub_le_sub_right hst st⟩

/-- A call up to the byte order mark. -/
theorem convert_eq {c : Chunk} (hh : haveBytes c.codeUnits c.start c.stop = (bs, eo, st, stop))
    (hsk : d.skipBomChunked bs st stop = .ok (d', st')) : c.convert d = convertFrom bs eo st' stop
    d' := by
  simp only [Chunk.convert, convertChunked, rangeEnd, c.valid]
  simp [hh, hsk]

/-- A chunk when the byte order mark is settled. -/
theorem convert_settled {q : Carry} (c : Chunk) (hd : Carries d q) (hbm : d.bomIndex = -1) :
    Converts d c.start (c.convert d) (run (step d.allowMalformed) q c.bytes) := by
  obtain ⟨bs, errorOffset, st, stop, hh, hst, hso, ho, hb⟩ := haveBytes_spec c
  have hsk : d.skipBomChunked bs st stop = .ok (d, st) := by
    simp [skipBomChunked, check, hst, hbm, pure, Except.pure]
  have hsp := convertFrom_spec errorOffset hso hd hst fun _ => .inl hbm
  rw [ho, ← hb] at hsp
  rw [convert_eq hh hsk]
  exact hsp

/-- A chunk after the first `k` bytes of a byte order mark. It completes the mark, goes on with it, or
shows that there is none. -/
theorem convert_bom (c : Chunk) (hk : k < 3) (hbm : d.bomIndex = k)
    (hd : Carries d (bomCarry k)) :
    (∃ w, c.bytes = bom.drop k ++ w ∧
      Converts { d with bomIndex := -1, state := initial } (c.start + (3 - k)) (c.convert d)
        (run (step d.allowMalformed) .empty w)) ∨
    (∃ r d', r ≠ [] ∧ bom.drop k = c.bytes ++ r ∧ c.convert d = .ok [] d' ∧
      Carries d' (bomCarry (k + c.bytes.length)) ∧ d'.bomIndex = (k + c.bytes.length : Nat) ∧
      d'.allowMalformed = d.allowMalformed) ∨
    ((∀ v, ¬bom.drop k <+: c.bytes ++ v) ∧
      Converts { d with bomIndex := -1 } c.start (c.convert d)
        (run (step d.allowMalformed) (bomCarry k) c.bytes)) := by
  obtain ⟨bs, errorOffset, st, stop, hh, hsr, hst, ho, hb⟩ := haveBytes_spec c
  have hsk : d.skipBomChunked bs st stop = skipBomLoop d bs st stop 4 k st := by
    simp [skipBomChunked, check, hsr, hbm]
  have hl : c.bytes.length = stop - st := by rw [hb, slice_length hst]
  rcases skipBomLoop_eq d st hst 4 k st (by omega) (by omega) hsr with
    ⟨w, hw, hre⟩ | ⟨r, hr, hw, hre⟩ | ⟨hno, hre⟩
  · left
    rw [← hsk] at hre
    have hln : stop - st = 3 - k + w.length := by
      rw [← slice_length hst, hw, length_append, length_drop]
      rfl
    have hrs : slice bs (st + (3 - k)) stop = w := by
      have ha := slice_append (by omega : st ≤ st + (3 - k))
        (by omega) hst
      rw [hw] at ha
      refine (append_inj_right ha ?_)
      rw [slice_length (by omega), length_drop]
      show st + (3 - k) - st = 3 - k
      omega
    have hsp := convertFrom_spec (d := { d with bomIndex := -1, state := initial })
      errorOffset hst ⟨rfl, empty_holds _⟩ (by omega : st + (3 - k) ≤ stop) fun _ => .inl rfl
    rw [← Nat.add_assoc, ho, hrs] at hsp
    refine ⟨w, by rw [hb, hw], ?_⟩
    rw [convert_eq hh hre]
    exact hsp
  · right; left
    rw [← hsk] at hre
    have hrn : run advance (bomCarry k) (slice bs st stop) =
        .ok (bomCarry (k + (stop - st)), []) := by
      have ht : slice bs st stop = (bom.drop k).take (stop - st) := by
        rw [hw, ← slice_length hst, take_left]
      have hlt : k + (stop - st) < 3 := by
        have hln := congrArg List.length hw
        rw [length_append, length_drop, slice_length hst] at hln
        have hrp := length_pos_of_ne_nil hr
        have hth : bom.length = 3 := rfl
        omega
      rw [ht]
      exact run_bom k (stop - st) hlt
    have hsp := convertFrom_spec (d := { d with bomIndex := ((k + (stop - st) : Nat) : Int) })
      errorOffset hst ⟨hd.state_eq, hd.holds⟩ hsr
      fun hlt => .inr ⟨by dsimp only; omega, _, _, hrn⟩
    rw [run_step_of_advance _ hrn] at hsp
    obtain ⟨d', hcn, hcr, ham, hbi⟩ := hsp
    rw [hl]
    exact ⟨r, d', hr, by rw [hb, hw], by rw [convert_eq hh hre, hcn], hcr, hbi, ham⟩
  · right; right
    rw [← hsk] at hre
    have hsp := convertFrom_spec (d := { d with bomIndex := -1 }) errorOffset hst
      ⟨hd.state_eq, hd.holds⟩ hsr fun _ => .inl rfl
    rw [ho, ← hb] at hsp
    rw [convert_eq hh hre]
    exact ⟨by rw [hb]; exact hno, hsp⟩

end Convert.Utf8Decoder
