import DartSdk.Convert.Utf8Decoder
import DartSdk.Lib.Bits
import DartSdk.Lib.Transducer

/-!
# UTF-8 as a transducer

What the tables of the decoder are for, without the tables: between two bytes there is either nothing
or the first bytes of a character, `Carry`; a byte completes the character, extends it or is an
error, `advance`. With `allowMalformed` an error is replaced, `step`.

* `transition_eq`, `lead_eq`: the tables of the decoder describe this transducer.
* `advance_inRange`: the value of an unfinished character is in the range of its phase.
-/

namespace Convert.Utf8Decoder

open Transducer

/-! ## The transducer -/

/-- What is still expected: nothing, or bytes of a character. The names are those of the states. -/
inductive Phase where
  | accept | x1 | x2 | x3 | tO | tS | qO | qR
  deriving DecidableEq

def Phase.code : Phase → Nat
  | accept => IA
  | x1 => X1
  | x2 => X2
  | x3 => X3
  | tO => TO
  | tS => TS
  | qO => QO
  | qR => QR

inductive Malformation where
  | missingExtension | unexpectedExtension | invalid | overlong | outOfRange | surrogate
  deriving DecidableEq

def Malformation.code : Malformation → Nat
  | missingExtension => E1
  | unexpectedExtension => E2
  | invalid => E3
  | overlong => E4
  | outOfRange => E5
  | surrogate => E6

/-- The phase after the first byte of a character. -/
def first (byte : Nat) : Except Malformation Phase :=
  if byte < 0x80 then .ok .accept
  else if byte < 0xC0 then .error .unexpectedExtension
  else if byte < 0xC2 then .error .invalid
  else if byte < 0xE0 then .ok .x1
  else if byte = 0xE0 then .ok .tO
  else if byte = 0xED then .ok .tS
  else if byte < 0xF0 then .ok .x2
  else if byte = 0xF0 then .ok .qO
  else if byte < 0xF4 then .ok .x3
  else if byte = 0xF4 then .ok .qR
  else .error .invalid

def isExtension (byte : Nat) : Bool := 0x80 ≤ byte && byte < 0xC0

/-- The phase after an extension byte. -/
def following (byte : Nat) : Phase → Except Malformation Phase
  | .accept => .error .unexpectedExtension
  | .x1 => .ok .accept
  | .x2 => .ok .x1
  | .x3 => .ok .x2
  | .tO => if byte < 0xA0 then .error .overlong else .ok .x1
  | .tS => if byte < 0xA0 then .ok .x1 else .error .surrogate
  | .qO => if byte < 0x90 then .error .overlong else .ok .x2
  | .qR => if byte < 0x90 then .ok .x2 else .error .outOfRange

def next (phase : Phase) (byte : Nat) : Except Malformation Phase :=
  if phase = .accept then first byte
  else if isExtension byte then following byte phase
  else .error .missingExtension

/-- The bits of the character in its first byte. -/
def lead (byte : Nat) : Nat :=
  if byte < 0x80 then byte
  else if byte < 0xE0 then byte % 0x20
  else if byte < 0xF0 then byte % 0x10
  else byte % 8

/-- The UTF-16 code units of a character. -/
def units (char : Nat) : Text :=
  if char < 0x10000 then [UInt16.ofNat char]
  else [UInt16.ofNat (0xD7C0 + char / 0x400), UInt16.ofNat (0xDC00 + char % 0x400)]

/-- The first bytes of a character: what is expected, and the bits so far. -/
structure Carry where
  phase : Phase
  char : Nat
  deriving DecidableEq

def Carry.empty : Carry := ⟨.accept, 0⟩

/-- The bits of the character with another byte. -/
def Carry.extend (q : Carry) (byte : Nat) : Nat :=
  if q.phase = .accept then lead byte else q.char * 0x40 + byte % 0x40

/-- A byte without replacement of errors. -/
def advance (q : Carry) (b : UInt8) : Except Malformation (Carry × Text) :=
  match next q.phase b.toNat with
  | .error m => .error m
  | .ok .accept => .ok (.empty, units (q.extend b.toNat))
  | .ok phase => .ok (⟨phase, q.extend b.toNat⟩, [])

def replacement : UInt16 := 0xFFFD

/-- What stands for an error, without the bytes that are parsed again. -/
def Malformation.replaced : Malformation → Text
  | missingExtension | unexpectedExtension | invalid => [replacement]
  | overlong | outOfRange | surrogate => [replacement, replacement]

/-- **A byte.** A byte that is no extension byte begins a character after a replaced one. -/
def step (allowMalformed : Bool) (q : Carry) (b : UInt8) : Except Malformation (Carry × Text) :=
  match advance q b with
  | .ok r => .ok r
  | .error m =>
    if !allowMalformed then .error m
    else if m = .missingExtension then
      match advance .empty b with
      | .ok (q', out) => .ok (q', m.replaced ++ out)
      | .error m' => .ok (.empty, m.replaced ++ m'.replaced)
    else .ok (.empty, m.replaced)

/-! ## The tables -/

/-- The state of the decoder for what `next` says. -/
def codeOf : Except Malformation Phase → Nat
  | .ok phase => phase.code
  | .error m => m.code

/-- The type of a byte. -/
def kind (byte : Nat) : Nat :=
  if byte < 0x80 then 1
  else if byte < 0x90 then 6
  else if byte < 0xA0 then 7
  else if byte < 0xC0 then if byte = 0xBB then 9 else if byte = 0xBF then 10 else 8
  else if byte < 0xC2 then 5
  else if byte < 0xE0 then 2
  else if byte = 0xE0 then 11
  else if byte = 0xED then 4
  else if byte = 0xEF then 12
  else if byte < 0xF0 then 3
  else if byte = 0xF0 then 15
  else if byte < 0xF4 then 14
  else if byte = 0xF4 then 13
  else 5

theorem typeTable_eq : typeTable = (List.range 0x100).map fun byte => 0x40 + kind byte := by
  decide +kernel

theorem kind_lt : ∀ byte < 0x100, kind byte < 0x10 := by
  intro byte _
  fun_cases kind byte <;> decide

variable {byte : Nat} {phase : Phase} {q : Carry} {b : UInt8}

theorem byteType_eq (hb : byte < 0x100) : byteType byte = .ok (kind byte) := by
  have hg : typeTable[byte]? = some (0x40 + kind byte) := by
    rw [typeTable_eq, List.getElem?_map, List.getElem?_range hb, Option.map_some]
  have hm : ∀ k < 0x10, (0x40 + k) &&& typeMask = k := by decide
  unfold byteType codeUnitAt
  rw [hg]
  exact congrArg Except.ok (hm _ (kind_lt byte hb))

/-- **The transition table** is the function `next`. -/
theorem transition_eq (phase : Phase) : ∀ {byte : Nat}, byte < 0x100 →
    codeUnitAt transitionTable (phase.code + kind byte) = .ok (codeOf (next phase byte)) := by
  have table : ∀ byte < 0x100,
      transitionTable[phase.code + kind byte]? = some (codeOf (next phase byte)) := by
    cases phase <;> decide +kernel
  intro byte hb
  simp only [codeUnitAt, table byte hb]

theorem lead_eq : ∀ byte < 0x100, (first byte).isOk →
    byte &&& (shiftedByteMask >>> kind byte) = lead byte := by
  decide +kernel

/-! ## States -/

theorem code_eq_accept : phase.code = accept ↔ phase = .accept := by
  cases phase <;> decide

theorem code_le_afterBom : phase.code ≤ afterBom ↔ phase = .accept := by
  cases phase <;> decide

@[simp] theorem isErrorState_phase (phase : Phase) : isErrorState phase.code = false := by
  cases phase <;> rfl

@[simp] theorem isErrorState_malformation (m : Malformation) : isErrorState m.code = true := by
  cases m <;> rfl

theorem malformation_ne_accept (m : Malformation) : m.code ≠ accept := by
  cases m <;> decide

/-! ## Characters -/

theorem or_shiftLeft_six (byte char : Nat) :
    (byte &&& 0x3F) ||| (char <<< 6) = char * 0x40 + byte % 0x40 := by
  show _ = char * 2 ^ 6 + byte % 2 ^ 6
  rw [show (0x3F : Nat) = 2 ^ 6 - 1 from rfl, Bits.and_low, Bits.shiftLeft, Nat.or_comm,
    Bits.or_disjoint char (Nat.mod_lt byte (by decide))]

/-- The bits of the character as the decoder computes them. -/
theorem extend_eq {char : Nat} (hb : byte < 0x100) (hq : q.phase ≠ .accept → char = q.char)
    (h : next q.phase byte = .ok phase) :
    (if q.phase.code ≤ afterBom then byte &&& (shiftedByteMask >>> kind byte)
      else (byte &&& 0x3F) ||| (char <<< 6)) = q.extend byte := by
  by_cases hp : q.phase = .accept
  · rw [if_pos (code_le_afterBom.2 hp), Carry.extend, if_pos hp]
    rw [hp, next, if_pos rfl] at h
    exact lead_eq byte hb (by rw [h]; rfl)
  · rw [if_neg (fun hle => hp (code_le_afterBom.1 hle)), Carry.extend, if_neg hp, hq hp,
      or_shiftLeft_six]

theorem writeCharCode_eq {char : Nat} (buf : Text) (h : char < 0x110000) :
    writeCharCode buf char = .ok (buf ++ units char) := by
  unfold writeCharCode units
  by_cases hc : char < 0x10000
  · rw [if_pos (by omega), if_pos hc]
  have hhg : 0xD800 ||| ((char - 0x10000) >>> 10) = 0xD7C0 + char / 0x400 := by
    have hor := Bits.or_disjoint (k := 10) 54 (b := (char - 0x10000) / 2 ^ 10)
    rw [Bits.shiftRight, show (0xD800 : Nat) = 54 * 2 ^ 10 from rfl, hor]
    omega
  have hl : 0xDC00 ||| ((char - 0x10000) &&& 0x3FF) = 0xDC00 + char % 0x400 := by
    have hor := Bits.or_disjoint (k := 10) 55 (b := (char - 0x10000) % 2 ^ 10)
    rw [show (0x3FF : Nat) = 2 ^ 10 - 1 from rfl, Bits.and_low,
      show (0xDC00 : Nat) = 55 * 2 ^ 10 from rfl, hor]
    omega
  rw [if_neg (by omega), if_neg (by omega), if_neg hc]
  simp only [hhg, hl]

theorem units_length (char : Nat) : (units char).length = if char < 0x10000 then 1 else 2 := by
  unfold units
  split <;> rfl

/-- The bits of an unfinished character are those its phase allows. -/
def Carry.InRange (q : Carry) : Prop :=
  match q.phase with
  | .accept => True
  | .x1 => 2 ≤ q.char ∧ q.char < 0x4400
  | .x2 => 1 ≤ q.char ∧ q.char < 0x110
  | .x3 => 1 ≤ q.char ∧ q.char < 4
  | .tO => q.char = 0
  | .tS => q.char = 0xD
  | .qO => q.char = 0
  | .qR => q.char = 4

theorem empty_phase : Carry.empty.phase = .accept := rfl

theorem empty_inRange : Carry.InRange .empty := trivial

theorem first_inRange (hb : byte < 0x100) (h : first byte = .ok phase) :
    Carry.InRange ⟨phase, lead byte⟩ ∧ (phase = .accept → lead byte < 0x80) := by
  unfold lead Carry.InRange
  revert h
  fun_cases first byte <;> rintro ⟨⟩ <;>
    simp only [reduceCtorEq, false_implies, and_true, true_and] <;> split_ifs <;> omega

theorem following_inRange (he : isExtension byte) (hq : q.InRange)
    (h : following byte q.phase = .ok phase) :
    Carry.InRange ⟨phase, q.char * 0x40 + byte % 0x40⟩ ∧
      (phase = .accept → q.char * 0x40 + byte % 0x40 < 0x110000) := by
  obtain ⟨p, char⟩ := q
  simp only [isExtension, Bool.and_eq_true, decide_eq_true_eq] at he
  cases p <;> simp only [following, reduceCtorEq] at h <;> (try split_ifs at h) <;> cases h <;>
    simp only [Carry.InRange] at hq ⊢ <;>
    simp only [reduceCtorEq, false_implies, and_true, true_and] <;> omega

/-- What the next byte does to the bits of the character. -/
theorem extend_inRange (hb : byte < 0x100) (hq : q.InRange) (h : next q.phase byte = .ok phase) :
    Carry.InRange ⟨phase, q.extend byte⟩ ∧ (phase = .accept → q.extend byte < 0x110000) := by
  unfold next at h
  unfold Carry.extend
  by_cases hp : q.phase = .accept
  · rw [if_pos hp] at h ⊢
    exact (first_inRange hb h).imp_right fun hlt he => Nat.lt_trans (hlt he) (by decide)
  · rw [if_neg hp] at h ⊢
    split_ifs at h with hex
    exact following_inRange hex hq h

/-! ## One byte -/

theorem advance_error {m : Malformation} (h : next q.phase b.toNat = .error m) :
    advance q b = .error m := by
  simp only [advance, h]

theorem advance_accept (h : next q.phase b.toNat = .ok .accept) :
    advance q b = .ok (.empty, units (q.extend b.toNat)) := by
  simp only [advance, h]

theorem advance_incomplete (h : next q.phase b.toNat = .ok phase) (hp : phase ≠ .accept) :
    advance q b = .ok (⟨phase, q.extend b.toNat⟩, []) := by
  unfold advance
  rw [h]
  cases phase <;> first | rfl | exact absurd rfl hp

/-- **What a byte does**: it completes a character or extends it. -/
theorem advance_cases {q' : Carry} {out : Text} (h : advance q b = .ok (q', out)) :
    (next q.phase b.toNat = .ok .accept ∧ q' = .empty ∧ out = units (q.extend b.toNat)) ∨
      ∃ phase, phase ≠ .accept ∧ next q.phase b.toNat = .ok phase ∧
        q' = ⟨phase, q.extend b.toNat⟩ ∧ out = [] := by
  cases hn : next q.phase b.toNat with
  | error m => rw [advance_error hn] at h; cases h
  | ok phase =>
    by_cases hp : phase = .accept
    · subst hp
      rw [advance_accept hn] at h
      cases h
      exact .inl ⟨rfl, rfl, rfl⟩
    · rw [advance_incomplete hn hp] at h
      cases h
      exact .inr ⟨phase, hp, rfl, rfl, rfl⟩

/-- Between two characters the bits do not matter. -/
theorem advance_of_accept (hq : q.phase = .accept) (b : UInt8) :
    advance q b = advance .empty b := by
  simp [advance, Carry.extend, hq, empty_phase]

theorem advance_inRange {q' : Carry} {out : Text} (hq : q.InRange) (h : advance q b = .ok (q', out)) :
    q'.InRange := by
  rcases advance_cases h with ⟨-, rfl, -⟩ | ⟨phase, -, hn, rfl, -⟩
  · exact empty_inRange
  · exact (extend_inRange b.toNat_lt hq hn).1

/-- Only an extension byte goes on with a character. -/
theorem next_of_not_isExtension {ph' : Phase} (he : ¬isExtension byte)
    (h : next phase byte = .ok ph') : phase = .accept := by
  by_contra hp
  rw [next, if_neg hp, if_neg he] at h
  cases h

theorem step_of_advance {r : Carry × Text} (lax : Bool) (h : advance q b = .ok r) :
    step lax q b = .ok r := by
  simp only [step, h]

theorem step_of_accept (lax : Bool) (hq : q.phase = .accept) (b : UInt8) :
    step lax q b = step lax .empty b := by
  simp only [step, advance_of_accept hq]

/-- Without replacement the steps are those of `advance`. -/
theorem step_false (q : Carry) (b : UInt8) : step false q b = advance q b := by
  unfold step
  cases advance q b <;> rfl

end Convert.Utf8Decoder
