import DartSdk.Convert.Proof.Utf8Characters
import DartSdk.Convert.Proof.Utf8Chunks
import DartSdk.Convert.Proof.Utf8Encoder

/-!
# What the state machine decodes

* `outcome_strict`: without replacement exactly the well-formed bytes are decoded, to their characters.
* `run_replaced`: with replacement every maximal ill-formed part becomes U+FFFD.
* `decodeSingle_eq`: the states for the byte order mark only remove one.
* `decodeSingle_spec`: the state machine in one go.
* `encodeChunked_decodeChunks`: **a text goes through both converters**.
-/

namespace Convert.Utf8Decoder

open Transducer Slices Utf8 List

/-! ## Without replacement -/

theorem units_eq (c : Char) : units c.val.toNat = Utf16.encodeChar c := by
  unfold units Utf16.encodeChar
  generalize c.val.toNat = n
  dsimp only
  split_ifs with h
  · rfl
  · rw [show 0xD7C0 + n / 0x400 = 0xD800 + (n - 0x10000) / 0x400 by omega,
      show n % 0x400 = (n - 0x10000) % 0x400 by omega]

theorem run_character (c : Char) :
    run advance .empty (String.utf8EncodeChar c) = .ok (.empty, Utf16.encodeChar c) := by
  rw [(encode_completes c).run, units_eq]

theorem run_encode (cs : List Char) :
    run advance .empty (encode cs) = .ok (.empty, Utf16.encode cs) := by
  induction cs with
  | nil => rfl
  | cons c cs ih =>
    rw [encode_cons, run_append_ok (run_character c), ih]
    rfl

variable {w u : List UInt8} {q : Carry} {text : Text} {m : Malformation} {b : UInt8}
  {lax : Bool}

/-- A run that succeeds and leaves nothing unfinished has read well-formed bytes. -/
theorem encode_of_run (n : Nat) {out : Text} (hn : w.length ≤ n)
    (h : run advance .empty w = .ok (q, out)) (hq : q.phase = .accept) :
    ∃ cs, w = encode cs ∧ out = Utf16.encode cs := by
  induction n generalizing w out with
  | zero =>
    obtain rfl := length_eq_zero_iff.1 (Nat.le_zero.1 hn)
    cases h
    exact ⟨[], rfl, rfl⟩
  | succ n ih =>
    rcases first_character .empty w with ⟨v, w', k, rfl, hv⟩ | ⟨q', hw⟩ |
      ⟨u, b, w', q', m, rfl, hu, hm⟩
    · obtain ⟨c, rfl, rfl⟩ := hv.encodes
      obtain ⟨q1, out1, out2, h1, h2, rfl⟩ := run_append_eq_ok h
      rw [run_character] at h1
      cases h1
      have hl : w'.length ≤ n := by
        have hp := length_pos_iff.2 (String.utf8EncodeChar_ne_nil (c := c))
        rw [length_append] at hn
        omega
      obtain ⟨cs, rfl, rfl⟩ := ih hl h2
      exact ⟨c :: cs, rfl, rfl⟩
    · rw [hw.run] at h
      cases h
      by_cases hnl : w = []
      · subst hnl
        exact ⟨[], rfl, rfl⟩
      · exact absurd hq (hw.phase_ne hnl)
    · rw [run_append_ok hu.run, run_cons_error (advance_error hm)] at h
      cases h

/-- **Without replacement** exactly the well-formed bytes are decoded. -/
theorem outcome_strict {ps : Nat} :
    outcome false ps .empty w = .ok text ↔ ∃ cs, w = encode cs ∧ text = Utf16.encode cs := by
  unfold outcome
  rw [run_step_false]
  constructor
  · intro h
    split at h
    · cases h
    next q out hr =>
    split_ifs at h with ha hm
    · cases h
      exact encode_of_run w.length le_rfl hr ha
    · exact hm.elim
  · rintro ⟨cs, rfl, rfl⟩
    rw [run_encode]
    rfl

/-! ## With replacement -/

theorem next_eq_error {ph : Phase} {byte : Nat} (h : next ph byte = .error m) :
    (ph = .accept ∧ m ≠ .missingExtension ∧ m.replaced = [replacement]) ∨
      (ph ≠ .accept ∧ m = .missingExtension) ∨
      (ph ≠ .accept ∧ isExtension byte ∧ m ≠ .missingExtension ∧
        m.replaced = [replacement, replacement]) := by
  unfold next at h
  split_ifs at h with hp he
  · left
    revert h
    fun_cases first byte <;> rintro ⟨⟩ <;> exact ⟨hp, by decide, rfl⟩
  · right; right
    cases ph with
    | accept => exact absurd rfl hp
    | x1 | x2 | x3 => cases h
    | tO | tS | qO | qR =>
      simp only [following] at h
      split_ifs at h
      cases h
      exact ⟨hp, he, by decide, rfl⟩
  · cases h
    exact .inr (.inl ⟨hp, rfl⟩)

theorem Extends.deterministic {q1 q2 : Carry} (h1 : Extends q u q1) (h2 : Extends q u q2) :
    q1 = q2 := by
  have h := h1.run
  rw [h2.run] at h
  cases h
  rfl

/-- Where the transducer is stuck no encoding goes on. -/
theorem prefix_of_stuck {v : List UInt8} (hu : Extends .empty u q)
    (hm : next q.phase b.toNat = .error m) (hv : v <+: u ++ b :: w) (hbg : Utf8.Begins v) :
    v <+: u := by
  obtain ⟨t, ht⟩ := hv
  rcases append_eq_append_iff.1 ht with ⟨x, hx, -⟩ | ⟨x, hx, hbx⟩
  · exact ⟨x, hx.symm⟩
  cases x with
  | nil =>
    refine ⟨[], ?_⟩
    rw [List.append_nil, hx, List.append_nil]
  | cons b' x =>
    obtain ⟨rfl, -⟩ := cons.inj hbx
    obtain ⟨c, y, hc⟩ := hbg
    have hcm := encode_completes c
    rw [← hc, hx, append_assoc] at hcm
    obtain ⟨q', hu', hq'⟩ := hcm.split (by simp)
    obtain rfl := hu.deterministic hu'
    rw [cons_append] at hq'
    generalize x ++ y = z at hq'
    generalize c.val.toNat = n at hq'
    cases hq' with
    | last hn | more hn _ _ => rw [hm] at hn; cases hn

/-- Where the transducer is stuck the bytes so far are a maximal part. -/
theorem maximalSubpart_of_stuck (hu : Extends .empty u q) (hm : next q.phase b.toNat = .error m)
    (hne : u ≠ []) :
    Utf8.MaximalSubpart u (u ++ b :: w) where
  unconvertible c hc :=
    hu.not_completes (prefix_of_stuck hu hm hc ⟨c, prefix_refl _⟩) (encode_completes c)
  isPrefix := prefix_append _ _
  ne_nil := hne
  begins := .inl (begins_of_extends hu hne)
  longest _ hv hbg := (prefix_of_stuck hu hm hv hbg).length_le

theorem maximalSubpart_byte (hm : next .accept b.toNat = .error m) :
    Utf8.MaximalSubpart [b] ([b] ++ w) where
  unconvertible c hc := by
    have hn := prefix_of_stuck (.nil _) hm hc ⟨c, prefix_refl _⟩
    exact String.utf8EncodeChar_ne_nil (prefix_nil.1 hn)
  isPrefix := prefix_append _ _
  ne_nil := by simp
  begins := .inr rfl
  longest v hv hbg := by
    rw [prefix_nil.1 (prefix_of_stuck (.nil _) hm hv hbg)]
    exact Nat.zero_le _

theorem maximalSubpart_end (hu : Extends .empty u q) (hne : u ≠ []) :
    Utf8.MaximalSubpart u (u ++ []) where
  unconvertible c hc := by
    rw [List.append_nil] at hc
    exact hu.not_completes hc (encode_completes c)
  isPrefix := prefix_append _ _
  ne_nil := hne
  begins := .inl (begins_of_extends hu hne)
  longest v hv _ := by
    have hle := hv.length_le
    rwa [List.append_nil] at hle

theorem encode_replacement (cs : List Char) :
    Utf16.encode (Utf16.replacement :: cs) = replacement :: Utf16.encode cs := rfl

/-- The text of a run with the end of the input. -/
def finished (q : Carry) (out : Text) : Text :=
  if q.phase = .accept then out else out ++ [replacement]

theorem finished_append (q : Carry) (out out' : Text) :
    finished q (out ++ out') = out ++ finished q out' := by
  unfold finished
  split_ifs <;> simp

/-- **With replacement** every maximal ill-formed part becomes U+FFFD. -/
theorem run_replaced (n : Nat) (hn : w.length ≤ n) :
    ∃ cs q out, Utf8.Replaced w cs ∧ run (step true) .empty w = .ok (q, out) ∧
      Utf16.encode cs = finished q out := by
  induction n generalizing w with
  | zero =>
    obtain rfl := length_eq_zero_iff.1 (Nat.le_zero.1 hn)
    exact ⟨[], .empty, [], .nil, rfl, rfl⟩
  | succ n ih =>
    rcases first_character .empty w with ⟨v, w', k, rfl, hv⟩ | ⟨q', hw⟩ |
      ⟨u, b, w', q', m, rfl, hu, hm⟩
    · -- a character
      obtain ⟨c, rfl, rfl⟩ := hv.encodes
      have hp := length_pos_iff.2 (String.utf8EncodeChar_ne_nil (c := c))
      rw [length_append] at hn
      obtain ⟨cs, q, out, hcs, hru, ht⟩ := ih (w := w') (by omega)
      refine ⟨c :: cs, q, Utf16.encodeChar c ++ out, .char c hcs, ?_, ?_⟩
      · rw [run_append_ok (run_step_of_advance true (run_character c)), hru]
      · rw [finished_append, ← ht]
        rfl
    · -- the end of the input
      by_cases hnl : w = []
      · subst hnl
        exact ⟨[], .empty, [], .nil, rfl, rfl⟩
      refine ⟨[Utf16.replacement], q', [], ?_, run_step_of_advance true hw.run, ?_⟩
      · have hr := Utf8.Replaced.illFormed (maximalSubpart_end hw hnl) .nil
        rwa [List.append_nil] at hr
      · rw [finished, if_neg (hw.phase_ne hnl)]
        rfl
    · -- a byte that does not go on
      have had : advance q' b = .error m := advance_error hm
      have hrn := run_step_of_advance true hu.run
      have ne_nil : q'.phase ≠ .accept → u ≠ [] := by
        rintro hac rfl
        cases hu
        exact hac rfl
      rw [length_append, length_cons] at hn
      rcases next_eq_error hm with ⟨hac, hne, ho⟩ | ⟨hac, rfl⟩ | ⟨hac, hex, hne, htw⟩
      · obtain rfl : u = [] := by
          by_contra hnl
          exact hu.phase_ne hnl hac
        cases hu
        obtain ⟨cs, q, out, hcs, hru, ht⟩ := ih (w := w') (by omega)
        rw [nil_append]
        have hr := Utf8.Replaced.illFormed (maximalSubpart_byte hm) hcs
        refine ⟨Utf16.replacement :: cs, q, [replacement] ++ out, hr, ?_, ?_⟩
        · rw [run_cons_ok (step_replaced had hne), hru, ho]
        · rw [encode_replacement, ht, finished_append q [replacement]]
          rfl
      · have hnl := ne_nil hac
        have hp := length_pos_iff.2 hnl
        obtain ⟨cs, q, out, hcs, hru, ht⟩ := ih (w := b :: w') (by rw [length_cons]; omega)
        obtain ⟨q1, out1, he, hst⟩ := step_missing had
        obtain ⟨q2, out2, out3, h2, hrs, rfl⟩ := run_cons_eq_ok hru
        rw [he] at h2
        cases h2
        refine ⟨Utf16.replacement :: cs, q, [replacement] ++ (out1 ++ out3),
          .illFormed (maximalSubpart_of_stuck hu hm hnl) hcs, ?_, ?_⟩
        · rw [run_append_ok hrn, run_cons_ok hst, hrs]
          rfl
        · rw [encode_replacement, ht, finished_append q [replacement]]
          rfl
      · have hnl := ne_nil hac
        have hby : next .accept b.toNat = .error .unexpectedExtension := by
          rw [isExtension_bounds] at hex
          rw [next, if_pos rfl, first, if_neg (by omega), if_pos hex.2]
        obtain ⟨cs, q, out, hcs, hru, ht⟩ := ih (w := w') (by omega)
        refine ⟨Utf16.replacement :: Utf16.replacement :: cs, q, [replacement, replacement] ++ out,
          .illFormed (maximalSubpart_of_stuck hu hm hnl)
            (.illFormed (maximalSubpart_byte hby) hcs), ?_, ?_⟩
        · rw [run_append_ok hrn, run_cons_ok (step_replaced had hne), hru, htw]
          rfl
        · rw [encode_replacement, encode_replacement, ht, finished_append q [replacement, replacement]]
          rfl

/-! ## The states for the byte order mark -/

/-- The rows of the states for the byte order mark are those of other states but for its bytes. -/
theorem bomRows : ∀ byte < 0x100,
    (byte ≠ 0xEF → transitionTable[BB + kind byte]? = transitionTable[IA + kind byte]?) ∧
    (byte ≠ 0xBB → transitionTable[B1 + kind byte]? = transitionTable[X2 + kind byte]?) ∧
    (byte ≠ 0xBF → transitionTable[B2 + kind byte]? = transitionTable[X1 + kind byte]?) ∧
    transitionTable[AB + kind byte]? = transitionTable[IA + kind byte]? := by
  decide +kernel

section

variable {bs : List UInt8} {stop fuel st st' char i byte : Nat} {buf : Text}

/-- Two states with the same transition for the byte. -/
theorem generalLoop_congr (hb : byte < 0x100)
    (hr : transitionTable[st + kind byte]? = transitionTable[st' + kind byte]?)
    (hle : st ≤ afterBom ↔ st' ≤ afterBom) :
    generalLoop lax bs stop fuel st char i byte buf =
      generalLoop lax bs stop fuel st' char i byte buf := by
  cases fuel with
  | zero => rfl
  | succ fuel =>
    rw [generalLoop, generalLoop, byteType_eq hb]
    simp [codeUnitAt, hr, hle]

/-- A byte that goes on with a character. -/
theorem generalLoop_goOn {char' : Nat} (hby : byte < 0x100)
    (hr : transitionTable[st + kind byte]? = some st') (hne : st' ≠ accept)
    (he : isErrorState st' = false)
    (hc : (if st ≤ afterBom then byte &&& (shiftedByteMask >>> kind byte)
      else (byte &&& 0x3F) ||| (char <<< 6)) = char') :
    generalLoop lax bs stop (fuel + 1) st char i byte buf =
      if i = stop then .ok (.done st' char' buf)
      else byteAt bs i >>= fun b =>
        generalLoop lax bs stop fuel st' char' (i + 1) b buf := by
  rw [generalLoop, byteType_eq hby, ok_bind]
  simp only [codeUnitAt, hr, ok_bind, hne, he, if_false, Bool.false_eq_true, hc]
  rfl

end

/-- A conversion whose loop ends in a state that is not an error. -/
theorem convertGeneral_done {d : Utf8Decoder} {state char : Nat} (hln : 0 < w.length)
    (hl : generalLoop d.allowMalformed w w.length (2 * w.length) d.state d.charOrIndex 1
      w[0].toNat [] = .ok (.done state char text))
    (hst : isErrorState state = false) :
    resultOf (convertGeneral (.uint8List w) 0 none true d) = if state ≤ afterBom then .ok text
      else if d.allowMalformed then .ok (text ++ [replacement])
      else .error (.format (errorDescription errorUnfinished) (w.length : Int)) := by
  have hwr : writeCharCode text unicodeReplacementCharacterRune = .ok (text ++ [replacement]) :=
    writeCharCode_eq text (by decide)
  have hdc : d.decodeGeneral w 0 w.length true =
      if state ≤ afterBom then .ok ({ d with state, charOrIndex := char }, text)
      else if d.allowMalformed then .ok ({ d with state, charOrIndex := char }, text ++ [replacement])
      else .ok ({ d with state := errorUnfinished, charOrIndex := w.length }, []) := by
    unfold decodeGeneral
    rw [byteAt_eq hln, ok_bind, Nat.sub_zero, Nat.zero_add, hl, ok_bind]
    by_cases hle : state ≤ afterBom
    · simp only [hle, Nat.not_lt.2 hle, decide_false, Bool.and_false, Bool.false_eq_true, if_false,
        if_true]
      rfl
    · simp only [hle, Nat.lt_of_not_le hle, decide_true, Bool.and_self, if_false, if_true, hwr,
        ok_bind]
      split_ifs <;> rfl
  split_ifs at hdc ⊢ with hle hm <;> rw [convertGeneral_eq hln hdc]
  · simp [hst, resultOf]
  · simp [hst, resultOf]
  · simp [show isErrorState errorUnfinished = true from rfl, resultOf, Failure.of]

/-- The machine in one go, when its loop comes to a byte in a state of the transducer. -/
theorem decodeSingle_of_loop {p fuel char : Nat} (hln : 0 < w.length)
    (hp : p < w.length) (hq : q.Holds char)
    (hl : generalLoop lax w w.length (2 * w.length) BB 0 1 w[0].toNat [] =
      generalLoop lax w w.length fuel q.phase.code char (p + 1) w[p].toNat [])
    (hf : 2 * (w.length - p) ≤ fuel + if q.phase = .accept then 1 else 0) :
    decodeSingle lax w = outcome lax p q (w.drop p) := by
  have ha : Agrees p [] (generalLoop lax w w.length fuel q.phase.code char (p + 1)
      w[p].toNat []) (run (step lax) q (slice w p w.length)) :=
    generalLoop_agrees le_rfl fuel [] hq hp hp hf
  rw [← hl] at ha
  have hsl : slice w p w.length = w.drop p := by rw [slice, take_length]
  rw [hsl] at ha
  exact convertGeneral_outcome hln
    (by rw [length_drop]; omega) ha

/-- The machine in one go, when the input ends in a byte order mark that is not complete. -/
theorem decodeSingle_take {k st char : Nat} (hk : k < 3) (hps : 0 < k)
    (hle : 0 < (bom.take k).length)
    (hl : generalLoop lax (bom.take k) (bom.take k).length (2 * (bom.take k).length) BB 0 1
      (bom.take k)[0].toNat [] = .ok (.done st char [])) (hst : isErrorState st = false)
    (hgt : ¬st ≤ afterBom) : decodeSingle lax (bom.take k) = outcome lax 0 .empty (bom.take k) := by
  have hdn := convertGeneral_done (d := createBeforeBom lax) hle hl hst
  rw [if_neg hgt] at hdn
  have hc := outcome_bomCarry lax hk []
  have hp : (bomCarry k).phase ≠ .accept := by
    interval_cases k <;> decide
  have hln : (bom.take k).length = k := by
    interval_cases k <;> rfl
  rw [List.append_nil] at hc
  rw [hc, outcome, run_nil]
  simp only [hp, if_false, length_nil, Nat.add_zero]
  rw [hln] at hdn
  exact hdn

section

variable (lax : Bool) (bs : List UInt8) (stop fuel i : Nat)

theorem generalLoop_EF :
    generalLoop lax bs stop (fuel + 1) BB 0 i 0xEF [] = if i = stop then .ok (.done B1 0xF [])
      else byteAt bs i >>= fun b => generalLoop lax bs stop fuel B1 0xF (i + 1) b [] :=
  generalLoop_goOn (by decide) rfl (by decide) rfl rfl

theorem generalLoop_BB :
    generalLoop lax bs stop (fuel + 1) B1 0xF i 0xBB [] = if i = stop then .ok (.done B2 0x3FB [])
      else byteAt bs i >>= fun b => generalLoop lax bs stop fuel B2 0x3FB (i + 1) b [] :=
  generalLoop_goOn (by decide) rfl (by decide) rfl rfl

theorem generalLoop_BF :
    generalLoop lax bs stop (fuel + 1) B2 0x3FB i 0xBF [] =
      if i = stop then .ok (.done AB 0xFEFF [])
      else byteAt bs i >>= fun b => generalLoop lax bs stop fuel AB 0xFEFF (i + 1) b [] :=
  generalLoop_goOn (by decide) rfl (by decide) rfl rfl

end

/-- **The state machine in one go** is the transducer after a byte order mark. -/
theorem decodeSingle_eq (lax : Bool) (w : List UInt8) :
    decodeSingle lax w = outcomeOfAll lax w := by
  unfold outcomeOfAll
  cases w with
  | nil => rfl
  | cons b0 w =>
  by_cases h0 : b0 = 0xEF
  case neg =>
    have hno : ¬bom <+: b0 :: w := by simp [bom, Ne.symm h0]
    have hne : b0.toNat ≠ 0xEF := fun h => h0 (UInt8.toNat_inj.1 h)
    rw [if_neg hno]
    exact decodeSingle_of_loop (by simp) (by simp) (empty_holds 0)
      (generalLoop_congr b0.toNat_lt ((bomRows _ b0.toNat_lt).1 hne) (by decide))
      (by rw [Nat.sub_zero]; exact Nat.le_add_right _ _)
  subst h0
  cases w with
  | nil =>
    rw [if_neg (by decide)]
    exact decodeSingle_take (k := 1) (by decide) (by decide) (by decide)
      (generalLoop_EF lax _ _ _ _) rfl (by decide)
  | cons b1 w =>
  have hEF := generalLoop_EF lax (0xEF :: b1 :: w) (0xEF :: b1 :: w).length (2 * w.length + 3) 1
  rw [if_neg (by simp)] at hEF
  change _ = generalLoop _ _ _ _ B1 0xF 2 b1.toNat _ at hEF
  by_cases h1 : b1 = 0xBB
  case neg =>
    have hno : ¬bom <+: 0xEF :: b1 :: w := by simp [bom, Ne.symm h1]
    have hne : b1.toNat ≠ 0xBB := fun h => h1 (UInt8.toNat_inj.1 h)
    have hhl : Carry.Holds (bomCarry 1) 0xF := ⟨⟨by decide, by decide⟩, fun _ => rfl⟩
    rw [if_neg hno]
    refine Eq.trans ?_ (outcome_bomCarry lax (by decide : 1 < 3) (b1 :: w)).symm
    refine decodeSingle_of_loop (by simp) (by simp) hhl (hEF.trans
      (generalLoop_congr b1.toNat_lt ((bomRows _ b1.toNat_lt).2.1 hne) (by decide))) ?_
    simp only [length_cons]
    omega
  subst h1
  cases w with
  | nil =>
    rw [if_neg (by decide)]
    exact decodeSingle_take (k := 2) (by decide) (by decide) (by decide)
      (hEF.trans (generalLoop_BB lax _ _ _ _)) rfl (by decide)
  | cons b2 w =>
  have hBB := hEF.trans (generalLoop_BB lax _ _ _ _)
  rw [if_neg (by simp)] at hBB
  change _ = generalLoop _ _ _ _ B2 0x3FB 3 b2.toNat _ at hBB
  by_cases h2 : b2 = 0xBF
  case neg =>
    have hno : ¬bom <+: 0xEF :: 0xBB :: b2 :: w := by simp [bom, Ne.symm h2]
    have hne : b2.toNat ≠ 0xBF := fun h => h2 (UInt8.toNat_inj.1 h)
    have hhl : Carry.Holds (bomCarry 2) 0x3FB := ⟨⟨by decide, by decide⟩, fun _ => rfl⟩
    rw [if_neg hno]
    refine Eq.trans ?_ (outcome_bomCarry lax (by decide : 2 < 3) (b2 :: w)).symm
    refine decodeSingle_of_loop (by simp) (by simp) hhl (hBB.trans
      (generalLoop_congr b2.toNat_lt ((bomRows _ b2.toNat_lt).2.2.1 hne) (by decide))) ?_
    simp only [length_cons]
    omega
  subst h2
  rw [if_pos (show bom <+: 0xEF :: 0xBB :: 0xBF :: w from prefix_append bom w)]
  cases w with
  | nil =>
    exact convertGeneral_done (d := createBeforeBom lax) (by simp)
      (hBB.trans (generalLoop_BF lax _ _ _ _)) rfl
  | cons b3 w =>
    have hBF := hBB.trans (generalLoop_BF lax _ _ _ _)
    rw [if_neg (by simp)] at hBF
    refine decodeSingle_of_loop (by simp) (by simp) (empty_holds 0xFEFF)
      (hBF.trans (generalLoop_congr b3.toNat_lt (bomRows _ b3.toNat_lt).2.2.2 (by decide))) ?_
    simp only [length_cons]
    omega

/-! ## The result -/

theorem encode_bomChar : String.utf8EncodeChar bomChar = bom := by decide

/-- Well-formed bytes begin with the byte order mark exactly when their characters do. -/
theorem bom_prefix_encode {cs : List Char} : bom <+: encode cs ↔ ∃ cs', cs = bomChar :: cs' := by
  rw [← encode_bomChar]
  constructor
  · intro h
    cases cs with
    | nil => exact absurd (prefix_nil.1 h) String.utf8EncodeChar_ne_nil
    | cons c cs =>
      obtain rfl := prefix_free _ c _ h (prefix_append _ _)
      exact ⟨cs, rfl⟩
  · rintro ⟨cs', rfl⟩
    exact prefix_append _ _

theorem dropBom_of_ne {cs : List Char} (h : ∀ cs', cs ≠ bomChar :: cs') : dropBom cs = cs := by
  cases cs with
  | nil => rfl
  | cons c cs =>
    rw [dropBom, if_neg]
    rintro rfl
    exact h cs rfl

theorem outcomeOfAll_strict :
    outcomeOfAll false w = .ok text ↔ ∃ cs, w = encode cs ∧ text = Utf16.encode (dropBom cs) := by
  unfold outcomeOfAll
  by_cases h : bom <+: w
  · obtain ⟨w, rfl⟩ := h
    rw [if_pos (prefix_append _ _), show (bom ++ w).drop 3 = w from rfl, outcome_strict]
    constructor
    · rintro ⟨cs, rfl, rfl⟩
      exact ⟨bomChar :: cs, by rw [encode_cons, encode_bomChar], rfl⟩
    rintro ⟨cs, hcs, rfl⟩
    obtain ⟨cs', rfl⟩ := bom_prefix_encode.1 (hcs ▸ prefix_append bom w)
    rw [encode_cons, encode_bomChar] at hcs
    exact ⟨cs', append_cancel_left hcs, rfl⟩
  · rw [if_neg h, outcome_strict]
    have hd : ∀ cs, w = encode cs → dropBom cs = cs := fun cs hcs =>
      dropBom_of_ne fun cs' heq => h (hcs ▸ bom_prefix_encode.2 ⟨cs', heq⟩)
    constructor
    · rintro ⟨cs, hcs, rfl⟩
      exact ⟨cs, hcs, by rw [hd cs hcs]⟩
    · rintro ⟨cs, hcs, rfl⟩
      exact ⟨cs, hcs, by rw [hd cs hcs]⟩

theorem outcome_replaced (ps : Nat) (w : List UInt8) :
    ∃ cs, Utf8.Replaced w cs ∧ outcome true ps .empty w = .ok (Utf16.encode cs) := by
  obtain ⟨cs, q, out, hcs, hr, ht⟩ := run_replaced w.length le_rfl
  refine ⟨cs, hcs, ?_⟩
  rw [outcome, hr, ht, finished]
  by_cases hp : q.phase = .accept <;> simp [hp]

theorem outcomeOfAll_replaced (w : List UInt8) :
    ∃ cs, Utf8.Replaced w cs ∧ outcomeOfAll true w = .ok (Utf16.encode (dropBom cs)) := by
  unfold outcomeOfAll
  by_cases h : bom <+: w
  · obtain ⟨w, rfl⟩ := h
    rw [if_pos (prefix_append _ _), show (bom ++ w).drop 3 = w from rfl]
    obtain ⟨cs, hcs, ho⟩ := outcome_replaced 3 w
    exact ⟨bomChar :: cs, encode_bomChar ▸ .char _ hcs, ho⟩
  · rw [if_neg h]
    obtain ⟨cs, hcs, ho⟩ := outcome_replaced 0 w
    refine ⟨cs, hcs, ?_⟩
    rw [ho, dropBom_of_ne]
    rintro cs' rfl
    generalize hc : bomChar = c at hcs
    cases hcs with
    | char c hcs => exact h (encode_bomChar ▸ hc ▸ prefix_append _ _)
    | illFormed _ _ => exact absurd hc (by decide)

/-- **The state machine in one go.** Without `allowMalformed` it decodes exactly the well-formed bytes,
to their characters without one byte order mark at the beginning. With `allowMalformed` it decodes all
bytes, with U+FFFD for every maximal ill-formed part. -/
theorem decodeSingle_spec (w : List UInt8) :
    (∀ text, decodeSingle false w = .ok text ↔
      ∃ cs, w = Utf8.encode cs ∧ text = Utf16.encode (Utf8.dropBom cs)) ∧
    (∃ cs, (∀ cs', Utf8.Replaced w cs' ↔ cs' = cs) ∧
      decodeSingle true w = .ok (Utf16.encode (Utf8.dropBom cs))) := by
  refine ⟨fun text => ?_, ?_⟩
  · rw [decodeSingle_eq]
    exact outcomeOfAll_strict
  obtain ⟨cs, hcs, ho⟩ := outcomeOfAll_replaced w
  refine ⟨cs, fun cs' => ⟨fun hcs' => hcs'.unique prefix_free hcs, ?_⟩, ?_⟩
  · rintro rfl
    exact hcs
  · rw [decodeSingle_eq, ho]

/-! ## Encoded text -/

theorem replaced_encode (cs : List Char) : Utf8.Replaced (encode cs) cs := by
  induction cs with
  | nil => exact .nil
  | cons c cs ih => exact .char c ih

theorem outcomeOfAll_encode (allowMalformed : Bool) (cs : List Char) :
    outcomeOfAll allowMalformed (encode cs) = .ok (Utf16.encode (dropBom cs)) := by
  cases allowMalformed with
  | false => exact outcomeOfAll_strict.mpr ⟨cs, rfl, rfl⟩
  | true =>
    obtain ⟨cs', hcs, ho⟩ := outcomeOfAll_replaced (encode cs)
    rw [ho, hcs.unique prefix_free (replaced_encode cs)]

/-- **A text goes through both converters**, in whatever slices it is encoded and in whatever chunks
the bytes are decoded. An unpaired surrogate becomes U+FFFD, and one byte order mark at the beginning
is dropped. -/
theorem encodeChunked_decodeChunks (slices : List StringSlice) :
    ∃ s, encodeChunked slices = some s ∧ ∀ (allowMalformed : Bool) (chunks : List Chunk),
      chunks.flatMap Chunk.bytes = emitted s.sink →
      decodeChunks (create allowMalformed) 0 chunks =
        .ok (Utf16.encode (dropBom (Utf16.decode (slices.flatMap StringSlice.units)))) := by
  obtain ⟨s, hs, he⟩ := Proof.encodeChunked_eq slices
  refine ⟨s, hs, fun allowMalformed chunks hc => ?_⟩
  have hd : decodeChunks (create allowMalformed) 0 chunks =
      outcomeOfAll allowMalformed (chunks.flatMap Chunk.bytes) :=
    decodeChunks_bom chunks (by decide) rfl ⟨rfl, empty_holds _⟩
  rw [hd, hc, he]
  exact outcomeOfAll_encode allowMalformed _

end Convert.Utf8Decoder
