import DartSdk.Lib.Bits
import DartSdk.Lib.Loops
import DartSdk.Convert.Utf8Encoder

/-!
# Correctness of the UTF-8 encoder

The encoder's loops are related to `Utf16.toUtf8` by telescoping: a step that encodes the code units
from `i` to `j` writes `bs` with `toUtf8 (us from i ++ rest) = bs ++ toUtf8 (us from j ++ rest)`, for
every continuation `rest` of the window. The window never ends in a lead surrogate the loop reads
(`_fillBuffer` leaves that one to its caller), so no step looks past it and the equations chain
across buffers and slices, with the carried lead surrogate as the part not yet encoded
(`addSlices_spec`).
-/

namespace Convert.Proof

open Convert Loops Utf16 Utf8EncoderSink Utf8Encoder StringSlice List Option Bool Bits
open String (utf8EncodeChar)

/-! ## Surrogates and bytes -/

theorem surrogate_bits (u : UInt16) : u.toNat &&& 0xFC00 = u.toNat / 1024 * 1024 := by
  have hu := u.toNat_lt
  have hm : u.toNat &&& 0xFC00 = u.toNat / 1024 % 64 * 1024 := and_mask u.toNat 6 10
  rw [hm, Nat.mod_eq_of_lt (by omega)]

theorem isLeadSurrogate_toNat (u : UInt16) : isLeadSurrogate u.toNat = isLead u := by
  rw [isLeadSurrogate, isLead, surrogate_bits, Bool.eq_iff_iff]
  simp only [beq_iff_eq, and_eq_true, decide_eq_true_eq]
  omega

theorem isTailSurrogate_toNat (u : UInt16) : isTailSurrogate u.toNat = isTail u := by
  rw [isTailSurrogate, isTail, surrogate_bits, Bool.eq_iff_iff]
  simp only [beq_iff_eq, and_eq_true, decide_eq_true_eq]
  omega

variable {u v : UInt16} {bs : List UInt8} {w : List UInt16} {i : Nat}

theorem lead_range (h : isLead u = true) : 0xD800 ≤ u.toNat ∧ u.toNat < 0xDC00 := by
  simpa [isLead] using h

theorem tail_range (h : isTail u = true) : 0xDC00 ≤ u.toNat ∧ u.toNat < 0xE000 := by
  simpa [isTail] using h

theorem combineSurrogatePair_eq (hu : isLead u = true) (hv : isTail v = true) :
    combineSurrogatePair u.toNat v.toNat =
      0x10000 + (u.toNat - 0xD800) * 0x400 + (v.toNat - 0xDC00) := by
  have hu := lead_range hu
  have hv := tail_range hv
  have h1 : u.toNat &&& 0x3FF = u.toNat % 1024 := and_low u.toNat 10
  have h2 : v.toNat &&& 0x3FF = v.toNat % 1024 := and_low v.toNat 10
  rw [combineSurrogatePair, h1, h2, shiftLeft,
    show 0x10000 + u.toNat % 1024 * 2 ^ 10 = (64 + u.toNat % 1024) * 2 ^ 10 by omega,
    or_disjoint]
  omega

/-- A continuation byte. -/
theorem or_80 (x : Nat) : 0x80 ||| (x &&& 0x3f) = 0x80 + x % 64 := by
  have h : x &&& 0x3f = x % 64 := and_low x 6
  rw [h]
  exact or_disjoint (k := 7) 1

theorem encode_pair (hu : isLead u = true) (hv : isTail v = true) :
    utf8EncodeChar (pair u v) = let rune := combineSurrogatePair u.toNat v.toNat
      [UInt8.ofNat (0xF0 ||| (rune >>> 18)), UInt8.ofNat (0x80 ||| ((rune >>> 12) &&& 0x3f)),
        UInt8.ofNat (0x80 ||| ((rune >>> 6) &&& 0x3f)), UInt8.ofNat (0x80 ||| (rune &&& 0x3f))] := by
  have hur := lead_range hu
  have hvr := tail_range hv
  rw [combineSurrogatePair_eq hu hv]
  have hvl : (pair u v).val.toNat =
      0x10000 + (u.toNat - 0xD800) * 0x400 + (v.toNat - 0xDC00) := toNat_ofNat (by omega)
  unfold utf8EncodeChar
  rw [hvl]
  generalize hr : 0x10000 + (u.toNat - 0xD800) * 0x400 + (v.toNat - 0xDC00) = r
  have h18 : r >>> 18 = r / 262144 := shiftRight r 18
  have h12 : r >>> 12 = r / 4096 := shiftRight r 12
  have h6 : r >>> 6 = r / 64 := shiftRight r 6
  have hF0 : 0xF0 ||| r / 262144 = 0xF0 + r / 262144 := or_disjoint (k := 4) 15
  simp only [h18, h12, h6, or_80, hF0]
  rw [if_neg (by omega), if_neg (by omega), if_neg (by omega),
    show r / 262144 % 8 + 240 = 240 + r / 262144 by omega, Nat.add_comm (r / 4096 % 64),
    Nat.add_comm (r / 64 % 64), Nat.add_comm (r % 64)]

theorem encode_replacement : utf8EncodeChar replacement = [0xEF, 0xBF, 0xBD] := by decide

theorem unpaired_surrogate (h : isLead u = true ∨ isTail u = true) : unpaired u = replacement := by
  rcases h with h | h <;> simp [unpaired, h]

theorem unpaired_toNat (hl : isLead u = false) (ht : isTail u = false) :
    (unpaired u).val.toNat = u.toNat := by
  have hu := u.toNat_lt
  have hr : ¬ (0xD800 ≤ u.toNat ∧ u.toNat < 0xE000) := by
    simp only [isLead, isTail, and_eq_false_iff, decide_eq_false_iff_not] at hl ht
    omega
  rw [unpaired, hl, ht]
  exact toNat_ofNat (by omega)

theorem encode_one (h : u.toNat ≤ oneByteLimit) :
    isLead u = false ∧ utf8EncodeChar (unpaired u) = [UInt8.ofNat u.toNat] := by
  unfold oneByteLimit at h
  have hl : isLead u = false := by simp [isLead]; omega
  refine ⟨hl, ?_⟩
  unfold utf8EncodeChar
  rw [unpaired_toNat hl (by simp [isTail]; omega)]
  exact if_pos h

section
variable (hl : isLead u = false) (ht : isTail u = false) (h1 : ¬ u.toNat ≤ oneByteLimit)
include hl ht h1

theorem encode_two (h2 : u.toNat ≤ twoByteLimit) :
    utf8EncodeChar (unpaired u) =
      [UInt8.ofNat (0xC0 ||| (u.toNat >>> 6)), UInt8.ofNat (0x80 ||| (u.toNat &&& 0x3f))] := by
  unfold oneByteLimit at h1
  unfold twoByteLimit at h2
  have h6 : u.toNat >>> 6 = u.toNat / 64 := shiftRight u.toNat 6
  have hC0 : 0xC0 ||| u.toNat / 64 = 0xC0 + u.toNat / 64 := or_disjoint (k := 6) 3
  unfold utf8EncodeChar
  rw [unpaired_toNat hl ht]
  simp only [h6, hC0, or_80]
  rw [if_neg h1, if_pos h2, show u.toNat / 64 % 32 + 192 = 192 + u.toNat / 64 by omega,
    Nat.add_comm (u.toNat % 64)]

theorem encode_three (h2 : ¬ u.toNat ≤ twoByteLimit) :
    utf8EncodeChar (unpaired u) =
      [UInt8.ofNat (0xE0 ||| (u.toNat >>> 12)), UInt8.ofNat (0x80 ||| ((u.toNat >>> 6) &&& 0x3f)),
        UInt8.ofNat (0x80 ||| (u.toNat &&& 0x3f))] := by
  have hu := u.toNat_lt
  unfold oneByteLimit at h1
  unfold twoByteLimit at h2
  have h12 : u.toNat >>> 12 = u.toNat / 4096 := shiftRight u.toNat 12
  have h6 : u.toNat >>> 6 = u.toNat / 64 := shiftRight u.toNat 6
  have hE0 : 0xE0 ||| u.toNat / 4096 = 0xE0 + u.toNat / 4096 := or_disjoint (k := 5) 7
  unfold utf8EncodeChar
  rw [unpaired_toNat hl ht]
  simp only [h12, h6, hE0, or_80]
  rw [if_neg h1, if_neg h2, if_pos (by omega),
    show u.toNat / 4096 % 16 + 224 = 224 + u.toNat / 4096 by omega, Nat.add_comm (u.toNat / 64 % 64),
    Nat.add_comm (u.toNat % 64)]

end

/-! ## Writing to the buffer -/

/-- The encoder after writing `bs`. -/
def append (e : Utf8Encoder) (bs : List UInt8) : Utf8Encoder := { e with buffer := e.buffer ++ bs }

theorem append_nil (e : Utf8Encoder) : append e [] = e := by simp [append]

theorem append_append (e : Utf8Encoder) (bs cs : List UInt8) :
    append (append e bs) cs = append e (bs ++ cs) := by simp [append]

theorem write_append {e : Utf8Encoder} {b : Nat} (h : e.buffer.length + bs.length < e.bufferSize) :
    (append e bs).write b = some (append e (bs ++ [UInt8.ofNat b])) := by
  simp [append, write, h]

theorem write_eq {e : Utf8Encoder} {b : Nat} (h : e.buffer.length < e.bufferSize) :
    e.write b = some (append e [UInt8.ofNat b]) := by
  simp [append, write, h]

theorem writeReplacementCharacter_eq {e : Utf8Encoder}
    (h : e.buffer.length + 3 ≤ e.bufferSize) :
    e.writeReplacementCharacter = some (append e (utf8EncodeChar replacement)) := by
  rw [encode_replacement, writeReplacementCharacter]
  simp (disch := grind) only [write_eq, write_append, some_bind]
  rfl

theorem writeSurrogate_pair {e : Utf8Encoder} (hu : isLead u = true) (hv : isTail v = true)
    (h : e.buffer.length + 4 ≤ e.bufferSize) :
    e.writeSurrogate u.toNat v.toNat = some (true, append e (utf8EncodeChar (pair u v))) := by
  rw [encode_pair hu hv, writeSurrogate, isTailSurrogate_toNat, if_pos hv]
  simp (disch := grind) only [write_eq, write_append, some_bind]
  rfl

theorem writeSurrogate_unpaired {e : Utf8Encoder} {lead next : Nat}
    (hv : isTailSurrogate next = false) (h : e.buffer.length + 3 ≤ e.bufferSize) :
    e.writeSurrogate lead next = some (false, append e (utf8EncodeChar replacement)) := by
  rw [writeSurrogate, hv, writeReplacementCharacter_eq h]
  rfl

/-! ## Filling the buffer -/

/-- `bs` is the encoding of the code units from `i` to `j` of a window, whatever follows it. -/
def Encodes (w : List UInt16) (i j : Nat) (bs : List UInt8) : Prop :=
  ∀ rest, toUtf8 (w.drop i ++ rest) = bs ++ toUtf8 (w.drop j ++ rest)

theorem Encodes.refl (w : List UInt16) (i : Nat) : Encodes w i i [] := fun _ => rfl

theorem Encodes.trans {j k : Nat} {cs : List UInt8} (h1 : Encodes w i j bs)
    (h2 : Encodes w j k cs) : Encodes w i k (bs ++ cs) := by
  intro rest
  rw [h1 rest, h2 rest, append_assoc]

theorem drop_eq (h : i < w.length) : w.drop i = w[i] :: w.drop (i + 1) :=
  drop_eq_getElem_cons h

theorem encodes_unpaired (hi : i < w.length)
    (h : isLead w[i] = true → ∃ h' : i + 1 < w.length, isTail w[i + 1] = false) :
    Encodes w i (i + 1) (utf8EncodeChar (unpaired w[i])) := by
  intro rest
  rw [drop_eq hi, cons_append]
  refine toUtf8_unpaired _ fun hl v hv => ?_
  obtain ⟨h', ht⟩ := h hl
  rw [drop_eq h'] at hv
  simp only [cons_append, head?_cons, Option.mem_def, some.injEq] at hv
  rw [← hv]
  exact ht

theorem encodes_pair (hi : i + 1 < w.length) (hl : isLead w[i] = true)
    (ht : isTail w[i + 1] = true) :
    Encodes w i (i + 2) (utf8EncodeChar (pair w[i] w[i + 1])) := by
  intro rest
  rw [drop_eq (Nat.lt_of_succ_lt hi), drop_eq hi, cons_append, cons_append]
  exact toUtf8_pair _ hl ht

section
variable {str : List UInt16} {stop : Nat} {e : Utf8Encoder} {i : Nat}

/-- The result of one iteration on the window up to `stop`: either the character does not fit, or
it is written. -/
def StepSpec (str : List UInt16) (stop : Nat) (e : Utf8Encoder) (i : Nat) : Prop :=
  (e.fillStep str i = some none ∧ (e.bufferSize < e.buffer.length + 3 ∨
    i + 1 < stop ∧ e.bufferSize < e.buffer.length + 4)) ∨
  ∃ j bs, e.fillStep str i = some (some (j, append e bs)) ∧ i < j ∧ j ≤ stop ∧
    bs.length ≤ 3 * (j - i) ∧ Encodes (str.take stop) i j bs

/-- A code unit on its own: `n` bytes when they fit. -/
theorem stepSpec_one {n : Nat} {b : UInt8} {bs : List UInt8} (hi : i < stop)
    (hn : n ≤ 3) (hln : (b :: bs).length = n)
    (hen : Encodes (str.take stop) i (i + 1) (b :: bs))
    (hf : e.bufferSize < e.buffer.length + n → e.fillStep str i = some none)
    (hft : e.buffer.length + n ≤ e.bufferSize →
      e.fillStep str i = some (some (i + 1, append e (b :: bs)))) : StepSpec str stop e i := by
  by_cases h : e.bufferSize < e.buffer.length + n
  · exact .inl ⟨hf h, .inl (by omega)⟩
  · exact .inr ⟨i + 1, b :: bs, hft (by omega), by omega, by omega, by omega, hen⟩

theorem fillStep_spec (hi : i < stop) (hs : stop ≤ str.length)
    (hld : isLead (str[i]) = true → i + 1 < stop) : StepSpec str stop e i := by
  have hiw : i < (str.take stop).length := by simp; omega
  have hg : (str.take stop)[i] = str[i] := by simp
  generalize hu : str[i] = u at hld hg
  have hst : str[i]? = some u := by rw [getElem?_eq_getElem (by omega), hu]
  have hf := fillStep.eq_1 e str i
  simp only [hst, some_bind, isLeadSurrogate_toNat, isTailSurrogate_toNat] at hf
  by_cases h1 : u.toNat ≤ oneByteLimit
  · obtain ⟨hl, hen⟩ := encode_one h1
    have he := encodes_unpaired hiw (by rw [hg, hl]; simp)
    rw [hg, hen] at he
    rw [if_pos h1] at hf
    refine stepSpec_one (n := 1) hi (by omega) rfl he (fun h => ?_) (fun h => ?_)
    · rw [hf, if_pos (by omega)]; rfl
    · rw [hf, if_neg (by omega), write_eq (by omega)]; rfl
  · cases hl : isLead u with
    | true =>
      simp only [h1, hl, ↓reduceIte] at hf
      have hi1 := hld hl
      have hi1w : i + 1 < (str.take stop).length := by simp; omega
      have hg1 : (str.take stop)[i + 1] = str[i + 1] := by simp
      generalize hv : str[i + 1] = v at hg1
      have hst1 : str[i + 1]? = some v := by rw [getElem?_eq_getElem (by omega), hv]
      by_cases hr : e.buffer.length + 4 > e.bufferSize
      · refine .inl ⟨?_, .inr ⟨hi1, hr⟩⟩
        rw [hf, if_pos hr]; rfl
      rw [if_neg hr, hst1, some_bind] at hf
      cases ht : isTail v with
      | true =>
        have he := encodes_pair hi1w (by rw [hg, hl]) (by rw [hg1, ht])
        rw [hg, hg1] at he
        refine .inr ⟨i + 2, _, ?_, by omega, by omega, ?_, he⟩
        · rw [hf, writeSurrogate_pair hl ht (by omega)]; rfl
        · rw [encode_pair hl ht]; simp
      | false =>
        have he := encodes_unpaired hiw (fun _ => ⟨hi1w, by rw [hg1, ht]⟩)
        rw [hg, unpaired_surrogate (.inl hl)] at he
        refine .inr ⟨i + 1, _, ?_, by omega, by omega, by rw [encode_replacement]; simp, he⟩
        rw [hf, writeSurrogate_unpaired (by rw [isTailSurrogate_toNat, ht]) (by omega)]
        rfl
    | false =>
      have he := encodes_unpaired hiw (by rw [hg, hl]; simp)
      rw [hg] at he
      cases ht : isTail u with
      | true =>
        simp only [h1, hl, ht, false_eq_true, ↓reduceIte] at hf
        rw [unpaired_surrogate (.inr ht), encode_replacement] at he
        refine stepSpec_one (n := 3) hi (by omega) rfl he (fun h => ?_) (fun h => ?_)
        · rw [hf, if_pos (by omega)]; rfl
        · rw [hf, if_neg (by omega), writeReplacementCharacter_eq (by omega), encode_replacement]
          rfl
      | false =>
        simp only [h1, hl, ht, false_eq_true, ↓reduceIte] at hf
        by_cases h2 : u.toNat ≤ twoByteLimit
        · rw [encode_two hl ht h1 h2] at he
          rw [if_pos h2] at hf
          refine stepSpec_one (n := 2) hi (by omega) rfl he (fun h => ?_) (fun h => ?_)
          · rw [hf, if_pos (by omega)]; rfl
          · rw [hf, if_neg (by omega), write_eq (by omega), some_bind,
              write_append (by simp; omega)]
            rfl
        · rw [encode_three hl ht h1 h2] at he
          rw [if_neg h2] at hf
          refine stepSpec_one (n := 3) hi (by omega) rfl he (fun h => ?_) (fun h => ?_)
          · rw [hf, if_pos (by omega)]; rfl
          · rw [hf, if_neg (by omega), write_eq (by omega), some_bind,
              write_append (by simp; omega), some_bind, write_append (by simp; omega)]
            rfl

/-- The loop ends at the end of its range, or before a character that does not fit. -/
theorem fillLoop_spec (hs : stop ≤ str.length) (last : Nat) (hls : last ≤ stop)
    (hld : ∀ k (_ : k < last), isLead (str[k]) = true → k + 1 < stop) :
    ∀ (n i : Nat) (e : Utf8Encoder), last ≤ i + n → i ≤ stop →
      ∃ j bs, fillLoop str last n i e = some (j, append e bs) ∧ i ≤ j ∧ j ≤ stop ∧
        bs.length ≤ 3 * (j - i) ∧ Encodes (str.take stop) i j bs ∧
        (last ≤ j ∨ e.bufferSize < e.buffer.length + bs.length + 3 ∨
          j + 1 < stop ∧ e.bufferSize < e.buffer.length + bs.length + 4)
  | 0, i, e, hn, hi =>
    ⟨i, [], by simp [fillLoop, append_nil], le_rfl, hi, by simp, .refl _ _,
      .inl (by omega)⟩
  | n + 1, i, e, hn, hi => by
    by_cases hlt : i < last
    · rcases @fillStep_spec str stop e i (by omega) hs (hld i hlt) with
        ⟨hno, hr⟩ | ⟨j, bs, hsm, hij, hj, hbs, hen⟩
      · refine ⟨i, [], ?_, le_rfl, hi, by simp, .refl _ _, .inr (by simpa using hr)⟩
        simp [fillLoop, hlt, hno, append_nil]
      obtain ⟨k, cs, hrc, hjk, hk, hcs, hen', hed⟩ :=
        fillLoop_spec hs last hls hld n j (append e bs) (by omega) hj
      refine ⟨k, bs ++ cs, ?_, by omega, hk, by simp; omega, hen.trans hen', ?_⟩
      · simp [fillLoop, hlt, hsm, hrc, append_append]
      · simpa [append, Nat.add_assoc] using hed
    · exact ⟨i, [], by simp [fillLoop, hlt, append_nil], le_rfl, hi, by simp,
        .refl _ _, .inl (by omega)⟩

/-- `_fillBuffer` on the window from `i` to `stop`: it stops at the end, before a lead surrogate
that ends the window, or before a character that does not fit. -/
theorem fillBuffer_spec (hi : i ≤ stop) (hs : stop ≤ str.length) :
    ∃ j bs, e.fillBuffer str i stop = some (j, append e bs) ∧ i ≤ j ∧ j ≤ stop ∧
      bs.length ≤ 3 * (j - i) ∧ Encodes (str.take stop) i j bs ∧
      (j = stop ∨ (∃ h : j < str.length, j + 1 = stop ∧ isLead (str[j]) = true) ∨
        (e.bufferSize < e.buffer.length + bs.length + 3 ∧ j < stop) ∨
        j + 1 < stop ∧ e.bufferSize < e.buffer.length + bs.length + 4) := by
  by_cases hne : i = stop
  · subst hne
    refine ⟨i, [], ?_, le_rfl, le_rfl, by simp, .refl _ _, .inl rfl⟩
    simp [fillBuffer, fillLoop, append_nil]
  have hlt : stop - 1 < str.length := by omega
  have hg : str[stop - 1]? = some str[stop - 1] := getElem?_eq_getElem hlt
  -- the loop leaves out a lead surrogate at the end
  obtain ⟨last, hls⟩ : ∃ n, n = if isLead str[stop - 1] then stop - 1 else stop := ⟨_, rfl⟩
  have hle : last ≤ stop ∧ stop ≤ last + 1 := by split_ifs at hls <;> omega
  have hld : ∀ k (_ : k < last), isLead str[k] = true → k + 1 < stop := fun k hk hlk => by
    by_cases hks : k = stop - 1
    · subst hks
      rw [if_pos hlk] at hls
      omega
    · omega
  obtain ⟨j, bs, hf, hij, hj, hbs, hen, hed⟩ :=
    fillLoop_spec hs last hle.1 hld (last - i) i e (by omega) hi
  refine ⟨j, bs, ?_, hij, hj, hbs, hen, ?_⟩
  · simp [fillBuffer, hne, hg, isLeadSurrogate_toNat, ← hls, hf]
  by_cases hjs : j = stop
  · exact .inl hjs
  rcases hed with h | h | h
  · obtain rfl : j = stop - 1 := by omega
    refine .inr (.inl ⟨hlt, by omega, ?_⟩)
    by_contra hl
    rw [if_neg hl] at hls
    omega
  · exact .inr (.inr (.inl ⟨h, by omega⟩))
  · exact .inr (.inr (.inr h))

end

theorem utf8Convert_eq (string : List UInt16) :
    utf8Convert string 0 none = some (toUtf8 string) := by
  have hc : checkValidRange 0 none string.length = some string.length := by
    simp [checkValidRange]
  by_cases h0 : string.length = 0
  · rw [length_eq_zero_iff] at h0
    subst h0
    rfl
  obtain ⟨j, bs, hf, -, hj, hbs, he, hen⟩ := @fillBuffer_spec string string.length
    (withBufferSize (string.length * 3)) 0 (Nat.zero_le _) le_rfl
  have he' := he []
  simp only [take_length, drop_zero, List.append_nil] at he'
  simp only [withBufferSize, length_nil] at hen
  -- three bytes for each code unit always fit
  rcases hen with rfl | ⟨hlt, hj1, hl⟩ | ⟨hr, hlt⟩ | ⟨hlt, hr⟩
  · simp only [utf8Convert, hc, some_bind, Nat.sub_zero, h0,
      ↓reduceIte, hf, ne_eq, not_true_eq_false]
    rw [he', drop_length, toUtf8_nil, List.append_nil]
    rfl
  · have hls : string.drop j = [string[j]] := by
      rw [drop_eq hlt, hj1, drop_length]
    rw [hls] at he'
    have ho : toUtf8 [string[j]] = utf8EncodeChar replacement := by
      rw [toUtf8_unpaired [] (by simp), unpaired_surrogate (.inl hl), toUtf8_nil, List.append_nil]
    have hw := @writeReplacementCharacter_eq (append (withBufferSize (string.length * 3)) bs)
      (by simp [append, withBufferSize]; omega)
    simp only [utf8Convert, hc, some_bind, Nat.sub_zero, h0,
      ↓reduceIte, hf, show j ≠ string.length by omega, ne_eq, not_false_eq_true, hw]
    rw [he', ho]
    rfl
  · omega
  · omega

/-! ## The chunked encoder -/

/-- `c` is the part of the input the sink carries: nothing, or a lead surrogate. -/
inductive Carries (s : Utf8EncoderSink) : List UInt16 → Prop
  | none : s.encoder.carry = 0 → Carries s []
  | lead {u : UInt16} : isLead u = true → s.encoder.carry = u.toNat → Carries s [u]

/-- The bytes given to the target sink and those still in the buffer. -/
def written (s : Utf8EncoderSink) : List UInt8 := emitted s.sink ++ s.encoder.buffer

theorem emitted_append (xs ys : List ByteSinkEvent) :
    emitted (xs ++ ys) = emitted xs ++ emitted ys := by simp [emitted]

/-- A sink between calls: the default buffer, empty, and `c` carried. -/
structure Ready (s : Utf8EncoderSink) (c : List UInt16) : Prop where
  size : s.encoder.bufferSize = 1024
  buffer : s.encoder.buffer = []
  carries : Carries s c

variable {s : Utf8EncoderSink} {c : List UInt16} {st : Nat}

theorem Ready.written (h : Ready s c) :
    Proof.written s = emitted s.sink := by simp [Proof.written, h.buffer]

/-- The surrogate that ends a slice. The continuation is empty after the last slice. -/
theorem endSurrogate_spec {e : Utf8Encoder} {str : List UInt16} {stop : Nat} {lst : Bool}
    (hle : st ≤ stop) (hs : stop ≤ str.length) (hcr : e.carry = 0) :
    ∃ k bs c carry, endSurrogate e str st stop lst =
        some (k, { append e bs with carry := carry }) ∧ st ≤ k ∧ k ≤ stop ∧
      (∀ s : Utf8EncoderSink, s.encoder.carry = carry → Carries s c) ∧ (st = stop → c = []) ∧
      (k < stop → k = st ∧ bs = [] ∧ carry = 0 ∧
        ∀ h : st < str.length, st + 1 = stop → isLead (str[st]) = false) ∧
      (k = stop → ∀ rest, (lst = true → rest = []) →
        toUtf8 ((str.take stop).drop st ++ rest) = bs ++ toUtf8 (c ++ rest)) := by
  unfold endSurrogate
  by_cases h1 : st + 1 = stop
  · have hg : str[st]? = some str[st] := getElem?_eq_getElem (by omega)
    have hd : (str.take stop).drop st = [str[st]] := by
      rw [drop_eq (by simp; omega), drop_eq_nil_of_le (by simp; omega)]
      simp
    generalize hu : str[st] = u at hg hd
    simp only [h1, ↓reduceIte, hg, some_bind, isLeadSurrogate_toNat]
    cases hl : isLead u with
    | true =>
      by_cases hls : (lst && decide (e.buffer.length + 3 < e.bufferSize)) = true
      · simp only [and_eq_true, decide_eq_true_eq] at hls
        refine ⟨stop, utf8EncodeChar replacement, [], 0, ?_, hle, le_rfl, fun _ => .none,
          fun _ => rfl, by omega, fun _ rest hr => ?_⟩
        · simp [hls, writeReplacementCharacter_eq (Nat.le_of_lt hls.2), append, hcr]
        · rw [hr hls.1, hd, List.append_nil, List.append_nil, toUtf8_unpaired [] (by simp),
            unpaired_surrogate (.inl hl)]
      · refine ⟨stop, [], [u], u.toNat, ?_, hle, le_rfl, fun _ => .lead hl, by omega, by omega,
          fun _ rest _ => by rw [hd]; rfl⟩
        simp [hls, append_nil]
    | false =>
      refine ⟨st, [], [], 0, by simp [← hcr, append_nil], le_rfl, hle, fun _ => .none,
        fun _ => rfl, fun _ => ⟨rfl, rfl, rfl, fun _ _ => by rw [hu, hl]⟩, by omega⟩
  · refine ⟨st, [], [], 0, by simp [h1, ← hcr, append_nil], le_rfl, hle, fun _ => .none,
      fun _ => rfl, fun _ => ⟨rfl, rfl, rfl, fun _ h => absurd h h1⟩, fun h rest _ => ?_⟩
    rw [h, drop_eq_nil_of_le (length_take_le _ _)]
    rfl

/-- The loop over the buffers of one slice: what is written and carried at its end. -/
theorem addLoop_spec {str : List UInt16} {stop : Nat} {lst : Bool} (hs : stop ≤ str.length) :
    ∀ (n st : Nat) (s : Utf8EncoderSink), stop - st < n → st ≤ stop →
      s.encoder.bufferSize = 1024 → s.encoder.buffer.length ≤ 4 → s.encoder.carry = 0 →
      ∃ s' c, addLoop str stop lst n st s = some s' ∧ Ready s' c ∧
        (st = stop → c = []) ∧ ∀ rest, (lst = true → rest = []) →
          written s ++ toUtf8 ((str.take stop).drop st ++ rest) =
            emitted s'.sink ++ toUtf8 (c ++ rest)
  | 0, _, _, hn, _, _, _, _ => absurd hn (Nat.not_lt_zero _)
  | n + 1, st, s, hn, hsr, hsz, hb, hcr => by
    obtain ⟨j, bs, hf, hij, hj, hbs, he, hen⟩ := @fillBuffer_spec str stop s.encoder st hsr hs
    obtain ⟨k, bs', c, carry, hes, hjk, hks, hcs, hni, hm, heq⟩ :=
      @endSurrogate_spec j (append s.encoder bs) str stop lst hj hs hcr
    let s1 : Utf8EncoderSink :=
      { encoder := { append (append s.encoder bs) bs' with buffer := [], carry := carry },
        sink := s.sink ++ [.addSlice (append (append s.encoder bs) bs').buffer (lst && j == stop)] }
    have hw1 : emitted s1.sink = written s ++ bs ++ bs' := by
      simp [s1, written, append, emitted]
    have hst : addLoop str stop lst (n + 1) st s =
        if k < stop then addLoop str stop lst n k s1 else some s1 := by
      simp only [addLoop, hf, hes, some_bind]
      rfl
    by_cases hk : k < stop
    · obtain ⟨rfl, rfl, rfl, hnl⟩ := hm hk
      -- every iteration that does not reach the end encodes a character
      have hp : st < k := by
        rcases hen with h | ⟨h, h1, hl⟩ | h | h
        · omega
        · rw [hnl h h1] at hl; cases hl
        · omega
        · omega
      obtain ⟨s', c', hrc, hrd, -, heq'⟩ := addLoop_spec hs n k s1 (by omega) hks hsz
        (by simp [s1]) rfl
      refine ⟨s', c', by rw [hst, if_pos hk, hrc], hrd, fun _ => by omega, fun rest hr => ?_⟩
      have hw : written s1 = written s ++ bs := by
        rw [written, hw1]; simp [s1]
      rw [he rest, ← append_assoc, ← hw]
      exact heq' rest hr
    · refine ⟨s1, c, by rw [hst, if_neg hk], ⟨hsz, rfl, hcs _ rfl⟩,
        fun _ => hni (by omega), fun rest hr => ?_⟩
      rw [hw1, he rest, heq (by omega) rest hr]
      simp

/-- The sink whose encoder wrote `bs` for the carry. -/
def flushed (s : Utf8EncoderSink) (bs : List UInt8) : Utf8EncoderSink :=
  { s with encoder := { append s.encoder bs with carry := 0 } }

theorem flushCarry_eq {str : List UInt16} {stop next : Nat} {b : Bool} (hc : s.encoder.carry ≠ 0)
    (hn : (if st ≠ stop then (·.toNat) <$> str[st]? else some 0) = some next)
    (hw : s.encoder.writeSurrogate s.encoder.carry next = some (b, append s.encoder bs)) :
    s.flushCarry str st stop = some (if b then st + 1 else st, flushed s bs) := by
  rw [flushCarry, if_pos hc]
  split at hn
  · rw [if_pos ‹_›, hn]
    simp only [some_bind, hw]
    rfl
  obtain rfl := some.inj hn
  rw [if_neg ‹_›]
  simp only [Option.pure_def, some_bind, hw]
  rfl

section
variable (h : Ready s c)
include h

theorem written_flushed (bs : List UInt8) : written (flushed s bs) = emitted s.sink ++ bs := by
  simp [written, flushed, append, h.buffer]

theorem flushed_buffer (bs : List UInt8) : (flushed s bs).encoder.buffer = bs := by
  simp [flushed, append, h.buffer]

/-- The carry, combined with the slice's first code unit or replaced, is written before the rest
of the slice. -/
theorem flushCarry_spec {str : List UInt16} {stop : Nat} (hle : st ≤ stop)
    (hs : stop ≤ str.length) :
    ∃ start' s', s.flushCarry str st stop = some (start', s') ∧ st ≤ start' ∧ start' ≤ stop ∧
      s'.encoder.bufferSize = 1024 ∧ s'.encoder.buffer.length ≤ 4 ∧ s'.encoder.carry = 0 ∧
      ∀ rest, (st = stop → rest = []) →
        emitted s.sink ++ toUtf8 (c ++ (str.take stop).drop st ++ rest) =
          written s' ++ toUtf8 ((str.take stop).drop start' ++ rest) := by
  rcases h.carries with hc | ⟨hu, hc⟩
  · refine ⟨st, s, by simp [flushCarry, hc], le_rfl, hle, h.size,
      by simp [h.buffer], hc, fun rest _ => ?_⟩
    rw [h.written, nil_append]
  rename_i u
  have hur := lead_range hu
  have hne : s.encoder.carry ≠ 0 := by omega
  have hrm : s.encoder.buffer.length + 4 ≤ s.encoder.bufferSize := by
    rw [h.size, h.buffer]; simp
  have hrm' : s.encoder.buffer.length + 3 ≤ s.encoder.bufferSize := by omega
  have hrp : (flushed s (utf8EncodeChar replacement)).encoder.buffer.length ≤ 4 := by
    rw [flushed_buffer h, encode_replacement]; simp
  rcases Nat.lt_or_ge st stop with hlt | hge
  · have hg : str[st]? = some str[st] := getElem?_eq_getElem (by omega)
    have hd : (str.take stop).drop st = str[st] :: (str.take stop).drop (st + 1) := by
      rw [drop_eq (by simp; omega)]
      simp
    generalize str[st] = v at hg hd
    have hn : (if st ≠ stop then (·.toNat) <$> str[st]? else some 0) = some v.toNat := by
      rw [if_pos (by omega), hg]; rfl
    cases hv : isTail v with
    | true =>
      refine ⟨st + 1, flushed s (utf8EncodeChar (pair u v)),
        flushCarry_eq (b := true) hne hn (by rw [hc, writeSurrogate_pair hu hv hrm]),
        by omega, hlt, h.size, ?_, rfl, fun rest _ => ?_⟩
      · rw [flushed_buffer h, encode_pair hu hv]; simp
      · rw [hd, written_flushed h]
        simp only [cons_append, nil_append]
        rw [toUtf8_pair _ hu hv, append_assoc]
    | false =>
      refine ⟨st, flushed s (utf8EncodeChar replacement),
        flushCarry_eq hne hn (writeSurrogate_unpaired (by rw [isTailSurrogate_toNat, hv]) hrm'),
        le_rfl, hle, h.size, hrp, rfl, fun rest _ => ?_⟩
      rw [hd, written_flushed h]
      simp only [cons_append, nil_append]
      rw [toUtf8_unpaired (v :: _) (fun _ w hw => by
        simp only [head?_cons, Option.mem_def, some.injEq] at hw
        rw [← hw, hv]), unpaired_surrogate (.inl hu), append_assoc]
  · -- an empty slice: the carry stays unpaired
    have heq : st = stop := by omega
    have hn : (if st ≠ stop then (·.toNat) <$> str[st]? else some 0) = some 0 := if_neg (by omega)
    refine ⟨st, flushed s (utf8EncodeChar replacement),
      flushCarry_eq hne hn (writeSurrogate_unpaired (by decide) hrm'), le_rfl, hle,
      h.size, hrp, rfl, fun rest hr => ?_⟩
    rw [hr heq, heq, drop_eq_nil_of_le (length_take_le _ _), written_flushed h]
    simp only [List.append_nil]
    rw [toUtf8_unpaired [] (by simp), unpaired_surrogate (.inl hu), append_assoc]

/-- **One slice: the new bytes and the new carry are the encoding of the old carry and the
slice.** An empty last slice, which is how `close` flushes, leaves no carry. -/
theorem addSliceOpen_spec {str : List UInt16} {stop : Nat} (lst : Bool)
    (hle : st ≤ stop) (hs : stop ≤ str.length) :
    ∃ s' c', s.addSliceOpen str st stop lst = some s' ∧ Ready s' c' ∧
      (st = stop → lst = true → c' = []) ∧
      ∀ rest, (lst = true → rest = []) →
        emitted s.sink ++ toUtf8 (c ++ (str.take stop).drop st ++ rest) =
          emitted s'.sink ++ toUtf8 (c' ++ rest) := by
  have hs0 : ({ s with encoder := { s.encoder with buffer := [] } } : Utf8EncoderSink) = s := by
    rw [← h.buffer]
  by_cases hem : (decide (st = stop) && !lst) = true
  · refine ⟨s, c, by simp only [addSliceOpen, hs0, hem]; rfl, h, ?_, ?_⟩
    · simp only [and_eq_true, decide_eq_true_eq, not_eq_true'] at hem
      simp [hem.2]
    · simp only [and_eq_true, decide_eq_true_eq] at hem
      intro rest _
      rw [hem.1, drop_eq_nil_of_le (length_take_le _ _), List.append_nil]
  · obtain ⟨start', s1, hf, hge, hle', hsz, hb, hcr, heq⟩ := flushCarry_spec h hle hs
    obtain ⟨s', c', hlp, hrd, hn, heq'⟩ :=
      @addLoop_spec str stop lst hs (stop - start' + 1) start' s1 (by omega) hle' hsz hb hcr
    refine ⟨s', c', ?_, hrd, fun he _ => hn (by omega), fun rest hr => ?_⟩
    · simp only [addSliceOpen, hs0, hem, false_eq_true, ↓reduceIte, hf, some_bind]
      exact hlp
    · rw [heq rest (fun he => hr (by simpa [he] using hem)), heq' rest hr]

/-- `close` writes the carry, and needs itself at most once more for that. -/
theorem close_spec :
    ∃ s', close 2 s = some s' ∧ emitted s'.sink = emitted s.sink ++ toUtf8 c := by
  have hcl : ∀ {n : Nat} {s : Utf8EncoderSink}, s.encoder.carry = 0 →
      close (n + 1) s = some { s with sink := s.sink ++ [.close] } :=
    fun hc => by simp [close, hc]
  rcases h.carries with hc | ⟨hu, hc⟩
  · exact ⟨_, hcl hc, by simp [emitted]⟩
  have hur := lead_range hu
  have hne : s.encoder.carry ≠ 0 := by omega
  obtain ⟨s', c', ha, hr, hno, heq⟩ := @addSliceOpen_spec s _ 0 h [] 0 true le_rfl le_rfl
  obtain rfl := hno rfl rfl
  rcases hr.carries with hc'
  refine ⟨{ s' with sink := s'.sink ++ [.close] }, ?_, ?_⟩
  · rw [close, if_pos hne, ha]
    exact hcl (by cases hc'; assumption)
  · have := heq [] (fun _ => rfl)
    simpa [emitted_append, emitted] using this.symm

end

/-! ## Whole runs -/

theorem ready_create : Ready create [] := ⟨rfl, rfl, .none rfl⟩

/-- The slices given so far are encoded, but for the carry. -/
theorem addSlices_spec : ∀ (cs : List StringSlice) {s : Utf8EncoderSink} {c : List UInt16},
    Ready s c → ∃ s' c', addSlices cs s = some s' ∧ Ready s' c' ∧
      ∀ rest, emitted s.sink ++ toUtf8 (c ++ cs.flatMap units ++ rest) =
        emitted s'.sink ++ toUtf8 (c' ++ rest)
  | [], s, c, h => ⟨s, c, rfl, h, fun rest => by simp⟩
  | d :: cs, s, c, h => by
    obtain ⟨s1, c1, ha, h1, -, heq1⟩ := addSliceOpen_spec h false d.start_le d.stop_le
    obtain ⟨s', c', hr, h', heq'⟩ := addSlices_spec cs h1
    refine ⟨s', c', ?_, h', fun rest => ?_⟩
    · simp only [addSlices, addSlice, ha, some_bind]
      exact hr
    · have hhd := heq1 (cs.flatMap units ++ rest) (by simp)
      rw [← heq' rest, append_assoc c1, ← hhd]
      simp [units]

/-- A run of slices ended by `close`. -/
theorem encodeChunked_eq (cs : List StringSlice) :
    ∃ s, encodeChunked cs = some s ∧ emitted s.sink = toUtf8 (cs.flatMap units) := by
  obtain ⟨s1, c1, hr, h1, heq⟩ := addSlices_spec cs ready_create
  obtain ⟨s, hc, he⟩ := close_spec h1
  refine ⟨s, by simp [encodeChunked, hr, hc], ?_⟩
  have := heq []
  simp only [List.append_nil, nil_append] at this
  rw [he, ← this]
  rfl

/-- A run of slices ended by a slice marked as the last. -/
theorem encodeChunkedLast_eq (cs : List StringSlice) (c : StringSlice) :
    ∃ s, encodeChunkedLast cs c = some s ∧ emitted s.sink = toUtf8 ((cs ++ [c]).flatMap units) := by
  obtain ⟨s1, c1, hr, h1, heq⟩ := addSlices_spec cs ready_create
  obtain ⟨s2, c2, had, h2, -, heq2⟩ := addSliceOpen_spec h1 true c.start_le c.stop_le
  obtain ⟨s, hcl, he⟩ := close_spec h2
  refine ⟨s, ?_, ?_⟩
  · simp [encodeChunkedLast, hr, addSlice, had, hcl]
  have hls := heq2 [] (fun _ => rfl)
  have ha := heq c.units
  simp only [List.append_nil, nil_append] at hls ha
  rw [he, ← hls]
  rw [show emitted create.sink = [] from rfl, nil_append] at ha
  rw [flatMap_append, flatMap_singleton, ha]
  rfl

/-- **`Utf8Encoder` is the standard encoding.** `convert` returns the UTF-8 bytes of the string's
code points, each unpaired surrogate as U+FFFD; and however a string is cut into slices, the sink
emits those same bytes, whether it is closed by `close` or by a last slice. -/
theorem utf8Encoder_spec :
    (∀ string : List UInt16, utf8Convert string 0 none = some (toUtf8 string)) ∧
    (∀ cs : List StringSlice, ∃ s, encodeChunked cs = some s ∧
      emitted s.sink = toUtf8 (cs.flatMap StringSlice.units)) ∧
    (∀ (cs : List StringSlice) (c : StringSlice), ∃ s, encodeChunkedLast cs c = some s ∧
      emitted s.sink = toUtf8 ((cs ++ [c]).flatMap StringSlice.units)) :=
  ⟨utf8Convert_eq, encodeChunked_eq, encodeChunkedLast_eq⟩

end Convert.Proof
