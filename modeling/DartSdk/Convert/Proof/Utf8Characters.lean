import DartSdk.Convert.Proof.DecodeGeneral
import DartSdk.Lib.Utf8

/-!
# The characters that the transducer accepts

`Extends` and `Completes` follow the transducer through the bytes of one character.

* `completes_iff`: the bytes that complete a character from the beginning are the encodings of the
  characters.
* `begins_of_extends`: bytes that leave a character unfinished begin such an encoding.
* `prefix_free`: no encoding begins another one.
-/

namespace Convert.Utf8Decoder

open Transducer List
open String (utf8EncodeChar)

/-! ## Paths -/

/-- The bytes `u` leave a character unfinished. -/
inductive Extends : Carry → List UInt8 → Carry → Prop where
  | nil (q : Carry) : Extends q [] q
  | cons {q q' : Carry} {b : UInt8} {phase : Phase} {u : List UInt8} :
      next q.phase b.toNat = .ok phase → phase ≠ .accept →
      Extends ⟨phase, q.extend b.toNat⟩ u q' → Extends q (b :: u) q'

/-- The bytes `v` complete the character `n`. -/
inductive Completes : Carry → List UInt8 → Nat → Prop where
  | last {q : Carry} {b : UInt8} : next q.phase b.toNat = .ok .accept →
      Completes q [b] (q.extend b.toNat)
  | more {q : Carry} {b : UInt8} {phase : Phase} {v : List UInt8} {n : Nat} :
      next q.phase b.toNat = .ok phase → phase ≠ .accept →
      Completes ⟨phase, q.extend b.toNat⟩ v n → Completes q (b :: v) n

variable {q q' : Carry} {u v : List UInt8} {n char : Nat} {phase : Phase} {b b1 : UInt8}

theorem Extends.run (h : Extends q u q') : Transducer.run advance q u = .ok (q', []) := by
  induction h with
  | nil => rfl
  | cons hn hp _ ih => rw [run_cons_ok (advance_incomplete hn hp), ih]; rfl

theorem Completes.run (h : Completes q v n) :
    Transducer.run advance q v = .ok (.empty, units n) := by
  induction h with
  | last hn => exact run_singleton (advance_accept hn)
  | more hn hp _ ih => rw [run_cons_ok (advance_incomplete hn hp), ih]; rfl

theorem Extends.phase_ne (h : Extends q u q') (hu : u ≠ []) : q'.phase ≠ .accept := by
  induction h with
  | nil => exact absurd rfl hu
  | @cons q q' b phase u _ hp h ih =>
    cases u with
    | nil => cases h; exact hp
    | cons c u => exact ih (by simp)

theorem Extends.completes (h : Extends q u q') (hv : Completes q' v n) :
    Completes q (u ++ v) n := by
  induction h with
  | nil => exact hv
  | cons hn hp _ ih => exact .more hn hp (ih hv)

/-- A beginning of the bytes of a character leaves it unfinished, or is all of them. -/
theorem Completes.split (h : Completes q (u ++ v) n) (hv : v ≠ []) :
    ∃ q', Extends q u q' ∧ Completes q' v n := by
  induction u generalizing q with
  | nil => exact ⟨q, .nil q, h⟩
  | cons b u ih =>
    rw [cons_append] at h
    generalize hw : u ++ v = w at h
    cases h with
    | last hn => exact absurd (append_eq_nil_iff.1 hw).2 hv
    | more hn hp h =>
      subst hw
      obtain ⟨q', hu, hq'⟩ := ih h
      exact ⟨q', .cons hn hp hu, hq'⟩

/-- The bytes of a character are determined by any bytes that follow them. -/
theorem Completes.deterministic {v' w w' : List UInt8} {n' : Nat} (h : Completes q v n)
    (h' : Completes q v' n') (hw : v ++ w = v' ++ w') : v = v' ∧ n = n' := by
  induction h generalizing v' with
  | @last q b hn =>
    cases h' with
    | last hn' =>
      obtain ⟨rfl, -⟩ := cons.inj hw
      exact ⟨rfl, rfl⟩
    | more hn' hp' _ =>
      obtain ⟨rfl, -⟩ := cons.inj hw
      rw [hn] at hn'
      cases hn'
      exact absurd rfl hp'
  | @more q b phase v n hn hp _ ih =>
    cases h' with
    | last hn' =>
      obtain ⟨rfl, -⟩ := cons.inj hw
      rw [hn] at hn'
      cases hn'
      exact absurd rfl hp
    | more hn' hp' h' =>
      obtain ⟨rfl, hr⟩ := cons.inj hw
      rw [hn] at hn'
      cases hn'
      obtain ⟨rfl, rfl⟩ := ih h' hr
      exact ⟨rfl, rfl⟩

theorem Extends.not_completes (h : Extends q u q') (hv : v <+: u) : ¬Completes q v n := by
  induction h generalizing v with
  | nil =>
    intro hc
    rw [prefix_nil.1 hv] at hc
    cases hc
  | @cons q q' b phase u hn hp _ ih =>
    intro hc
    cases hc with
    | last hn' =>
      rw [cons_prefix_cons] at hv
      obtain ⟨rfl, -⟩ := hv
      rw [hn] at hn'
      cases hn'
      exact hp rfl
    | more hn' hp' hc =>
      rw [cons_prefix_cons] at hv
      obtain ⟨rfl, hv⟩ := hv
      rw [hn] at hn'
      cases hn'
      exact ih hv hc

/-- **The first character of any bytes** is there, unfinished, or broken off by a byte. -/
theorem first_character (q : Carry) (w : List UInt8) :
    (∃ v w' n, w = v ++ w' ∧ Completes q v n) ∨ (∃ q', Extends q w q') ∨
      ∃ u b w' q' m, w = u ++ b :: w' ∧ Extends q u q' ∧ next q'.phase b.toNat = .error m := by
  induction w generalizing q with
  | nil => exact .inr (.inl ⟨q, .nil q⟩)
  | cons b w ih =>
    cases hn : next q.phase b.toNat with
    | error m => exact .inr (.inr ⟨[], b, w, q, m, rfl, .nil q, hn⟩)
    | ok phase =>
      by_cases hp : phase = .accept
      · subst hp
        exact .inl ⟨[b], w, _, rfl, .last hn⟩
      rcases ih ⟨phase, q.extend b.toNat⟩ with ⟨v, w', n, rfl, h⟩ | ⟨q', h⟩ |
        ⟨u, c, w', q', m, rfl, h, hm⟩
      · exact .inl ⟨b :: v, w', n, rfl, .more hn hp h⟩
      · exact .inr (.inl ⟨q', .cons hn hp h⟩)
      · exact .inr (.inr ⟨b :: u, c, w', q', m, rfl, .cons hn hp h, hm⟩)

/-! ## Extension bytes -/

theorem isExtension_bounds {byte : Nat} : isExtension byte ↔ 0x80 ≤ byte ∧ byte < 0xC0 := by
  simp [isExtension]

theorem extend_incomplete (char byte : Nat) (hp : phase ≠ .accept) :
    Carry.extend ⟨phase, char⟩ byte = char * 0x40 + byte % 0x40 := by
  rw [Carry.extend, if_neg hp]

/-- What the next byte of an unfinished character is. -/
theorem next_eq_ok {ph' : Phase} {byte : Nat} (hp : phase ≠ .accept) :
    next phase byte = .ok ph' ↔ isExtension byte ∧ following byte phase = .ok ph' := by
  rw [next, if_neg hp]
  split_ifs with he
  · exact ⟨fun h => ⟨he, h⟩, fun h => h.2⟩
  · exact ⟨by simp, fun h => absurd h.1 he⟩

/-- One byte is missing. -/
theorem completes_x1 :
    Completes ⟨.x1, char⟩ v n ↔
      ∃ b : UInt8, isExtension b.toNat ∧ v = [b] ∧ n = char * 0x40 + b.toNat % 0x40 := by
  have hp : Phase.x1 ≠ .accept := by decide
  refine ⟨fun h => ?_, ?_⟩
  · cases h with
    | @last _ b hn => exact ⟨b, ((next_eq_ok hp).1 hn).1, rfl, extend_incomplete char _ hp⟩
    | more hn hp' h =>
      have hf := ((next_eq_ok hp).1 hn).2
      cases hf
      exact absurd rfl hp'
  · rintro ⟨b, hb, rfl, rfl⟩
    rw [← extend_incomplete char b.toNat hp]
    exact .last ((next_eq_ok hp).2 ⟨hb, rfl⟩)

/-- The bytes of a character that is not finished by the next one. -/
theorem completes_more (ph' : Phase) (hp : phase ≠ .accept) (hp' : ph' ≠ .accept)
    (hfl : ∀ byte p, following byte phase = .ok p → p = ph') :
    Completes ⟨phase, char⟩ v n ↔ ∃ (b : UInt8) (v' : List UInt8),
      isExtension b.toNat ∧ following b.toNat phase = .ok ph' ∧ v = b :: v' ∧
        Completes ⟨ph', char * 0x40 + b.toNat % 0x40⟩ v' n := by
  refine ⟨fun h => ?_, ?_⟩
  · cases h with
    | last hn => exact absurd (hfl _ _ ((next_eq_ok hp).1 hn).2).symm hp'
    | @more _ b p v' _ hn _ h =>
      obtain ⟨hb, hf⟩ := (next_eq_ok hp).1 hn
      obtain rfl := hfl _ _ hf
      rw [extend_incomplete char _ hp] at h
      exact ⟨b, v', hb, hf, rfl, h⟩
  · rintro ⟨b, v', hb, hf, rfl, h⟩
    refine .more ((next_eq_ok hp).2 ⟨hb, hf⟩) hp' ?_
    rw [extend_incomplete char _ hp]
    exact h

theorem completes_two (hp : phase = .x2 ∨ phase = .tO ∨ phase = .tS) :
    Completes ⟨phase, char⟩ v n ↔ ∃ b c : UInt8, isExtension b.toNat ∧
      following b.toNat phase = .ok .x1 ∧ isExtension c.toNat ∧
      v = [b, c] ∧ n = (char * 0x40 + b.toNat % 0x40) * 0x40 + c.toNat % 0x40 := by
  rw [completes_more .x1 (by grind) (by decide) (by grind [following])]
  simp only [completes_x1]
  grind

theorem completes_three (hp : phase = .x3 ∨ phase = .qO ∨ phase = .qR) :
    Completes ⟨phase, char⟩ v n ↔ ∃ b c d : UInt8, isExtension b.toNat ∧
      following b.toNat phase = .ok .x2 ∧ isExtension c.toNat ∧ isExtension d.toNat ∧
      v = [b, c, d] ∧
      n = ((char * 0x40 + b.toNat % 0x40) * 0x40 + c.toNat % 0x40) * 0x40 + d.toNat % 0x40 := by
  rw [completes_more .x2 (by grind) (by decide) (by grind [following])]
  simp only [completes_two (.inl rfl)]
  grind [following]

/-! ## The characters -/

/-- The first bytes of the characters, with what follows. -/
theorem completes_empty :
    Completes .empty (b :: v) n ↔ ∃ phase, first b.toNat = .ok phase ∧
      (phase = .accept ∧ v = [] ∧ n = lead b.toNat ∨
        phase ≠ .accept ∧ Completes ⟨phase, lead b.toNat⟩ v n) := by
  have he : Carry.extend .empty b.toNat = lead b.toNat := by rw [Carry.extend, if_pos empty_phase]
  have hnx : next Carry.empty.phase b.toNat = first b.toNat := by rw [next, if_pos empty_phase]
  refine ⟨fun h => ?_, ?_⟩
  · cases h with
    | last hn => exact ⟨.accept, hnx ▸ hn, .inl ⟨rfl, rfl, he⟩⟩
    | more hn hp h => exact ⟨_, hnx ▸ hn, .inr ⟨hp, he ▸ h⟩⟩
  rintro ⟨phase, hf, ⟨rfl, rfl, rfl⟩ | ⟨hp, h⟩⟩
  · rw [← he]
    exact .last (hnx ▸ hf)
  · exact .more (hnx ▸ hf) hp (he ▸ h)

theorem completes_three_bytes (hb : 0xE0 ≤ b.toNat ∧ b.toNat < 0xF0) :
    Completes .empty (b :: v) n ↔ ∃ b1 b2 : UInt8, isExtension b1.toNat ∧
      ((b.toNat = 0xE0 → 0xA0 ≤ b1.toNat) ∧ (b.toNat = 0xED → b1.toNat < 0xA0)) ∧
      isExtension b2.toNat ∧ v = [b1, b2] ∧
      n = (b.toNat % 0x10 * 0x40 + b1.toNat % 0x40) * 0x40 + b2.toNat % 0x40 := by
  have hf : first b.toNat = .ok (if b.toNat = 0xE0 then .tO
      else if b.toNat = 0xED then .tS else .x2) := by grind [first]
  have hl : lead b.toNat = b.toNat % 0x10 := by grind [lead]
  simp only [completes_empty, hf, hl, Except.ok.injEq, exists_eq_left']
  split_ifs with hE0 hED <;> simp [completes_two, following, *]

theorem completes_four_bytes (hb : 0xF0 ≤ b.toNat ∧ b.toNat < 0xF5) :
    Completes .empty (b :: v) n ↔ ∃ b1 b2 b3 : UInt8, isExtension b1.toNat ∧
      ((b.toNat = 0xF0 → 0x90 ≤ b1.toNat) ∧ (b.toNat = 0xF4 → b1.toNat < 0x90)) ∧
      isExtension b2.toNat ∧ isExtension b3.toNat ∧ v = [b1, b2, b3] ∧
      n = ((b.toNat % 8 * 0x40 + b1.toNat % 0x40) * 0x40 + b2.toNat % 0x40) * 0x40 +
        b3.toNat % 0x40 := by
  have hf : first b.toNat = .ok (if b.toNat = 0xF0 then .qO
      else if b.toNat = 0xF4 then .qR else .x3) := by grind [first]
  have hl : lead b.toNat = b.toNat % 8 := by grind [lead]
  simp only [completes_empty, hf, hl, Except.ok.injEq, exists_eq_left']
  split_ifs with hF0 hF4 <;> simp [completes_three, following, *]

theorem ofNat_eq {k : Nat} (h : k = b.toNat := by omega) : UInt8.ofNat k = b := by
  rw [h, UInt8.ofNat_toNat]

theorem exists_char (h : n < 0xD800 ∨ 0xDFFF < n ∧ n < 0x110000) :
    ∃ c : Char, c.val.toNat = n := ⟨Char.ofNat n, Utf16.toNat_ofNat h⟩

theorem encode_one_byte (hb : b.toNat < 0x80) :
    ∃ c : Char, [b] = utf8EncodeChar c ∧ b.toNat = c.val.toNat := by
  obtain ⟨c, hc⟩ := exists_char (by omega : b.toNat < 0xD800 ∨ 0xDFFF < b.toNat ∧ b.toNat < 0x110000)
  refine ⟨c, ?_, hc.symm⟩
  unfold utf8EncodeChar
  rw [hc, if_pos (by omega), ofNat_eq rfl]

theorem encode_two_bytes (hb : 0xC2 ≤ b.toNat ∧ b.toNat < 0xE0) (h1 : isExtension b1.toNat) :
    ∃ c : Char, [b, b1] = utf8EncodeChar c ∧
      b.toNat % 0x20 * 0x40 + b1.toNat % 0x40 = c.val.toNat := by
  rw [isExtension_bounds] at h1
  obtain ⟨n, hn⟩ : ∃ n, n = b.toNat % 0x20 * 0x40 + b1.toNat % 0x40 := ⟨_, rfl⟩
  obtain ⟨c, hc⟩ := exists_char (by omega : n < 0xD800 ∨ 0xDFFF < n ∧ n < 0x110000)
  refine ⟨c, ?_, by omega⟩
  unfold utf8EncodeChar
  rw [hc, if_neg (by omega), if_pos (by omega), ofNat_eq (b := b),
    ofNat_eq (b := b1)]

theorem encode_three_bytes {b2 : UInt8} (hb : 0xE0 ≤ b.toNat ∧ b.toNat < 0xF0)
    (h1 : isExtension b1.toNat) (h2 : isExtension b2.toNat)
    (hn : n = (b.toNat % 0x10 * 0x40 + b1.toNat % 0x40) * 0x40 + b2.toNat % 0x40)
    (hl : 0x800 ≤ n) (hch : n < 0xD800 ∨ 0xDFFF < n) :
    ∃ c : Char, [b, b1, b2] = utf8EncodeChar c ∧ n = c.val.toNat := by
  rw [isExtension_bounds] at h1 h2
  obtain ⟨c, hc⟩ := exists_char (by omega : n < 0xD800 ∨ 0xDFFF < n ∧ n < 0x110000)
  refine ⟨c, ?_, hc.symm⟩
  unfold utf8EncodeChar
  rw [hc, if_neg (by omega), if_neg (by omega), if_pos (by omega), ofNat_eq (b := b),
    ofNat_eq (b := b1), ofNat_eq (b := b2)]

theorem encode_four_bytes {b2 b3 : UInt8} (hb : 0xF0 ≤ b.toNat ∧ b.toNat < 0xF8)
    (h1 : isExtension b1.toNat) (h2 : isExtension b2.toNat) (h3 : isExtension b3.toNat)
    (hn : n = ((b.toNat % 8 * 0x40 + b1.toNat % 0x40) * 0x40 + b2.toNat % 0x40) * 0x40 + b3.toNat % 0x40)
    (hl : 0x10000 ≤ n) (hch : n < 0x110000) :
    ∃ c : Char, [b, b1, b2, b3] = utf8EncodeChar c ∧ n = c.val.toNat := by
  rw [isExtension_bounds] at h1 h2 h3
  obtain ⟨c, hc⟩ := exists_char (by omega : n < 0xD800 ∨ 0xDFFF < n ∧ n < 0x110000)
  refine ⟨c, ?_, hc.symm⟩
  unfold utf8EncodeChar
  rw [hc, if_neg (by omega), if_neg (by omega), if_neg (by omega), ofNat_eq (b := b),
    ofNat_eq (b := b1), ofNat_eq (b := b2), ofNat_eq (b := b3)]

theorem Completes.encodes (h : Completes .empty v n) :
    ∃ c : Char, v = utf8EncodeChar c ∧ n = c.val.toNat := by
  cases v with
  | nil => cases h
  | cons b v =>
    by_cases ht : 0xE0 ≤ b.toNat ∧ b.toNat < 0xF0
    · obtain ⟨b1, b2, h1, hb1, h2, rfl, hn⟩ := (completes_three_bytes ht).1 h
      have he := isExtension_bounds.1 h1
      exact encode_three_bytes ht h1 h2 hn (by omega) (by omega)
    by_cases hf : 0xF0 ≤ b.toNat ∧ b.toNat < 0xF5
    · obtain ⟨b1, b2, b3, h1, hb1, h2, h3, rfl, hn⟩ := (completes_four_bytes hf).1 h
      have he := isExtension_bounds.1 h1
      exact encode_four_bytes (by omega) h1 h2 h3 hn (by omega) (by omega)
    obtain ⟨phase, hfr, ⟨rfl, rfl, rfl⟩ | ⟨hp, hc⟩⟩ := completes_empty.1 h
    · have h80 : b.toNat < 0x80 := by grind [first]
      rw [lead, if_pos h80]
      exact encode_one_byte h80
    have hx1 : phase = .x1 ∧ 0xC2 ≤ b.toNat ∧ b.toNat < 0xE0 := by grind [first]
    obtain ⟨rfl, hb⟩ := hx1
    obtain ⟨b1, h1, rfl, rfl⟩ := completes_x1.1 hc
    rw [lead, if_neg (by omega), if_pos hb.2]
    exact encode_two_bytes hb h1

theorem toNat_byte {k : Nat} (h : k < 0x100 := by omega) : (UInt8.ofNat k).toNat = k := by
  rw [UInt8.toNat_ofNat', Nat.mod_eq_of_lt h]

theorem toNat_extension (k : Nat) :
    (UInt8.ofNat (k % 0x40 + 0x80)).toNat = k % 0x40 + 0x80 ∧
      isExtension (UInt8.ofNat (k % 0x40 + 0x80)).toNat := by
  rw [isExtension_bounds, toNat_byte]
  omega

/-- The encoding of a character completes it. -/
theorem encode_completes (c : Char) : Completes .empty (utf8EncodeChar c) c.val.toNat := by
  have hv : c.val.toNat < 0xD800 ∨ 0xDFFF < c.val.toNat ∧ c.val.toNat < 0x110000 := c.valid
  unfold utf8EncodeChar
  generalize c.val.toNat = n at hv
  obtain ⟨h0, he0⟩ := toNat_extension n
  obtain ⟨h1, he1⟩ := toNat_extension (n / 64)
  obtain ⟨h2, he2⟩ := toNat_extension (n / 4096)
  dsimp only
  split_ifs with ho htw ht
  · have hb : (UInt8.ofNat n).toNat = n := toNat_byte
    refine completes_empty.2 ⟨.accept, ?_, .inl ⟨rfl, rfl, ?_⟩⟩
    · rw [hb, first, if_pos (by omega)]
    · rw [hb, lead, if_pos (by omega)]
  · have hb : (UInt8.ofNat (n / 64 % 32 + 192)).toNat = n / 64 % 32 + 192 := toNat_byte
    refine completes_empty.2 ⟨.x1, ?_, .inr ⟨by decide, completes_x1.2 ⟨_, he0, rfl, ?_⟩⟩⟩
    · rw [hb, first, if_neg (by omega), if_neg (by omega), if_neg (by omega), if_pos (by omega)]
    · rw [hb, h0, lead, if_neg (by omega), if_pos (by omega)]
      omega
  · have hb : (UInt8.ofNat (n / 4096 % 16 + 224)).toNat = n / 4096 % 16 + 224 := toNat_byte
    refine (completes_three_bytes (by omega)).2 ⟨_, _, he1, ?_, he0, rfl, ?_⟩ <;>
      rw [hb, h1] <;> omega
  have hb : (UInt8.ofNat (n / 262144 % 8 + 240)).toNat = n / 262144 % 8 + 240 := toNat_byte
  refine (completes_four_bytes (by omega)).2 ⟨_, _, _, he2, ?_, he1, he0, rfl, ?_⟩ <;>
    rw [hb, h2] <;> omega

/-- Every unfinished character can be completed. -/
theorem exists_completes (hq : q.phase ≠ .accept) : ∃ v n, Completes q v n := by
  obtain ⟨phase, char⟩ := q
  have he : isExtension (0x80 : UInt8).toNat := by decide
  cases phase with
  | accept => exact absurd rfl hq
  | x1 => exact ⟨_, _, completes_x1.2 ⟨0x80, he, rfl, rfl⟩⟩
  | x2 | tS =>
    exact ⟨_, _, (completes_two (by simp)).2 ⟨0x80, 0x80, he, rfl, he, rfl, rfl⟩⟩
  | tO =>
    exact ⟨_, _, (completes_two (by simp)).2 ⟨0xA0, 0x80, by decide, rfl, he, rfl, rfl⟩⟩
  | x3 | qR =>
    exact ⟨_, _, (completes_three (by simp)).2 ⟨0x80, 0x80, 0x80, he, rfl, he, he, rfl, rfl⟩⟩
  | qO =>
    exact ⟨_, _, (completes_three (by simp)).2 ⟨0x90, 0x80, 0x80, by decide, rfl, he, he, rfl, rfl⟩⟩

/-- **Bytes that leave a character unfinished** begin an encoding. -/
theorem begins_of_extends (h : Extends .empty u q) (hu : u ≠ []) : Utf8.Begins u := by
  obtain ⟨v, n, hv⟩ := exists_completes (h.phase_ne hu)
  obtain ⟨c, hc, -⟩ := (h.completes hv).encodes
  exact ⟨c, v, hc⟩

/-- **No encoding begins another one.** -/
theorem prefix_free (c d : Char) (w : List UInt8) (hc : utf8EncodeChar c <+: w)
    (hd : utf8EncodeChar d <+: w) : c = d := by
  obtain ⟨v, rfl⟩ := hc
  obtain ⟨v', hv⟩ := hd
  obtain ⟨-, hn⟩ := (encode_completes c).deterministic (encode_completes d) hv.symm
  exact Char.ext (UInt32.toNat_inj.1 hn)

end Convert.Utf8Decoder
