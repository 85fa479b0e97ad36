import DartSdk.Lib.Utf16

/-!
# Well-formed and ill-formed UTF-8

The encoding of a character is Lean's (`String.utf8EncodeChar`), so that a list of bytes is
well-formed when it is `encode cs` for some characters `cs`. `Replaced` says which characters any
bytes stand for when each maximal ill-formed part is replaced by U+FFFD: the longest beginning of what
is left that begins the encoding of a character, or a single byte.
-/

namespace Utf8

open List

def encode (cs : List Char) : List UInt8 := cs.flatMap String.utf8EncodeChar

@[simp] theorem encode_cons (c : Char) (cs : List Char) :
    encode (c :: cs) = String.utf8EncodeChar c ++ encode cs := rfl

/-- The byte order mark, U+FEFF. -/
def bomChar : Char := Char.ofNat 0xFEFF

/-- The characters without one byte order mark at the beginning. -/
def dropBom : List Char → List Char
  | [] => []
  | c :: cs => if c = bomChar then cs else c :: cs

/-- The bytes begin the encoding of a character. -/
def Begins (u : List UInt8) : Prop := ∃ c, u <+: String.utf8EncodeChar c

/-- A maximal part of bytes that do not begin with the encoding of a character. -/
structure MaximalSubpart (u w : List UInt8) : Prop where
  unconvertible : ∀ c, ¬String.utf8EncodeChar c <+: w
  isPrefix : u <+: w
  ne_nil : u ≠ []
  begins : Begins u ∨ u.length = 1
  longest : ∀ v, v <+: w → Begins v → v.length ≤ u.length

/-- The characters of the bytes, with U+FFFD for every maximal ill-formed part. -/
inductive Replaced : List UInt8 → List Char → Prop where
  | nil : Replaced [] []
  | char {w : List UInt8} {cs : List Char} (c : Char) : Replaced w cs →
      Replaced (String.utf8EncodeChar c ++ w) (c :: cs)
  | illFormed {u w : List UInt8} {cs : List Char} : MaximalSubpart u (u ++ w) → Replaced w cs →
      Replaced (u ++ w) (Utf16.replacement :: cs)

theorem MaximalSubpart.unique {u v w : List UInt8} (hu : MaximalSubpart u w)
    (hv : MaximalSubpart v w) : u = v := by
  have hle : ∀ {u v}, MaximalSubpart u w → MaximalSubpart v w → u.length ≤ v.length := by
    intro u v hu hv
    rcases hu.begins with hb | ho
    · exact hv.longest u hu.isPrefix hb
    · rw [ho]
      exact length_pos_iff.2 hv.ne_nil
  have hl : u.length = v.length := Nat.le_antisymm (hle hu hv) (hle hv hu)
  rw [prefix_iff_eq_take.1 hu.isPrefix, prefix_iff_eq_take.1 hv.isPrefix, hl]

/-- **The replacement is unique** if no encoding of a character begins another one. -/
theorem Replaced.unique
    (hf : ∀ (c d : Char) (w : List UInt8), String.utf8EncodeChar c <+: w →
      String.utf8EncodeChar d <+: w → c = d) {w : List UInt8} {cs ds : List Char}
    (hcs : Replaced w cs) (hds : Replaced w ds) : cs = ds := by
  induction hcs generalizing ds with
  | nil =>
    generalize hw : ([] : List UInt8) = w at hds
    cases hds with
    | nil => rfl
    | char c _ =>
      have hn := (append_eq_nil_iff.1 hw.symm).1
      exact absurd hn (String.utf8EncodeChar_ne_nil)
    | illFormed hu _ => exact absurd (append_eq_nil_iff.1 hw.symm).1 hu.ne_nil
  | @char w cs c _ ih =>
    generalize hw : String.utf8EncodeChar c ++ w = v at hds
    have hc : String.utf8EncodeChar c <+: v := ⟨w, hw⟩
    cases hds with
    | nil => exact absurd (append_eq_nil_iff.1 hw).1 String.utf8EncodeChar_ne_nil
    | @char w' ds d hds =>
      obtain rfl := hf c d _ hc (prefix_append _ _)
      rw [append_cancel_left hw] at ih
      rw [ih hds]
    | illFormed hu _ => exact absurd hc (hu.unconvertible c)
  | @illFormed u w cs hu _ ih =>
    generalize hw : u ++ w = v at hds hu
    cases hds with
    | nil => exact absurd (append_eq_nil_iff.1 hw).1 hu.ne_nil
    | @char w' ds d hds => exact absurd (prefix_append _ _) (hu.unconvertible d)
    | @illFormed u' w' ds hu' hds =>
      obtain rfl := hu.unique hu'
      rw [append_cancel_left hw] at ih
      rw [ih hds]

end Utf8
