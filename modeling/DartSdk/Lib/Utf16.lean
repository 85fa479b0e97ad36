import Mathlib.Tactic.Ring

/-!
# UTF-16 text and its UTF-8 encoding

Text is a list of 16-bit code units. `Utf16.decode` reads it as Unicode characters, an unpaired
surrogate as U+FFFD; `Utf16.toUtf8` is the UTF-8 encoding of those characters, with Lean's own
encoder of one character (`String.utf8EncodeChar`).
-/

namespace Utf16

open Bool

def isLead (u : UInt16) : Bool := 0xD800 ≤ u.toNat && u.toNat < 0xDC00

def isTail (u : UInt16) : Bool := 0xDC00 ≤ u.toNat && u.toNat < 0xE000

/-- The character of a surrogate pair. -/
def pair (lead tail : UInt16) : Char :=
  Char.ofNat (0x10000 + (lead.toNat - 0xD800) * 0x400 + (tail.toNat - 0xDC00))

def replacement : Char := Char.ofNat 0xFFFD

/-- The character of a code unit that is not part of a pair. -/
def unpaired (u : UInt16) : Char :=
  if isLead u || isTail u then replacement else Char.ofNat u.toNat

def decode : List UInt16 → List Char
  | [] => []
  | [u] => [unpaired u]
  | u :: v :: us => if isLead u && isTail v then pair u v :: decode us else unpaired u :: decode (v :: us)

/-- The code units of a character. -/
def encodeChar (c : Char) : List UInt16 :=
  let n := c.val.toNat
  if n < 0x10000 then [UInt16.ofNat n]
  else
    [UInt16.ofNat (0xD800 + (n - 0x10000) / 0x400), UInt16.ofNat (0xDC00 + (n - 0x10000) % 0x400)]

def encode (cs : List Char) : List UInt16 := cs.flatMap encodeChar

def toUtf8 (us : List UInt16) : List UInt8 := (decode us).flatMap String.utf8EncodeChar

@[simp] theorem toUtf8_nil : toUtf8 [] = [] := rfl

theorem toUtf8_pair {u v : UInt16} (us : List UInt16) (hu : isLead u = true) (hv : isTail v = true) :
    toUtf8 (u :: v :: us) = String.utf8EncodeChar (pair u v) ++ toUtf8 us := by
  simp [toUtf8, decode, hu, hv]

/-- A code unit that starts no pair is encoded on its own. -/
theorem toUtf8_unpaired {u : UInt16} (us : List UInt16)
    (h : isLead u = true → ∀ v ∈ us.head?, isTail v = false) :
    toUtf8 (u :: us) = String.utf8EncodeChar (unpaired u) ++ toUtf8 us := by
  cases us with
  | nil => simp [toUtf8, decode]
  | cons v us =>
    have hp : (isLead u && isTail v) = false := by
      cases hu : isLead u with
      | false => rfl
      | true => simpa using h hu v (by simp)
    simp [toUtf8, decode, hp]

theorem toNat_ofNat {n : Nat} (h : n < 0xD800 ∨ 0xDFFF < n ∧ n < 0x110000) :
    (Char.ofNat n).val.toNat = n := by
  have hv : n.isValidChar := h
  rw [Char.ofNat, dif_pos hv]
  rfl

/-! ## Decoding what was encoded -/

theorem decode_encodeChar (c : Char) (us : List UInt16) :
    decode (encodeChar c ++ us) = c :: decode us := by
  have hvl : c.val.toNat < 0xD800 ∨ 0xDFFF < c.val.toNat ∧ c.val.toNat < 0x110000 := c.valid
  have hc : Char.ofNat c.val.toNat = c := Char.ofNat_toNat c
  unfold encodeChar
  generalize c.val.toNat = n at hvl hc
  by_cases hn : n < 0x10000
  · have hu : (UInt16.ofNat n).toNat = n := UInt16.toNat_ofNat_of_lt (show _ < 65536 by omega)
    have hl : isLead (UInt16.ofNat n) = false := by
      rw [isLead, hu, and_eq_false_iff, decide_eq_false_iff_not, decide_eq_false_iff_not]
      omega
    have ht : isTail (UInt16.ofNat n) = false := by
      rw [isTail, hu, and_eq_false_iff, decide_eq_false_iff_not, decide_eq_false_iff_not]
      omega
    have hun : unpaired (UInt16.ofNat n) = c := by
      rw [unpaired, hl, ht, hu]
      exact hc
    rw [if_pos hn]
    cases us with
    | nil => simp [decode, hun]
    | cons v us => simp [decode, hl, hun]
  · have hu : (UInt16.ofNat (0xD800 + (n - 0x10000) / 0x400)).toNat =
        0xD800 + (n - 0x10000) / 0x400 := UInt16.toNat_ofNat_of_lt (show _ < 65536 by omega)
    have hv : (UInt16.ofNat (0xDC00 + (n - 0x10000) % 0x400)).toNat =
        0xDC00 + (n - 0x10000) % 0x400 := UInt16.toNat_ofNat_of_lt (show _ < 65536 by omega)
    have hl : isLead (UInt16.ofNat (0xD800 + (n - 0x10000) / 0x400)) = true := by
      rw [isLead, hu, and_eq_true, decide_eq_true_iff, decide_eq_true_iff]
      omega
    have ht : isTail (UInt16.ofNat (0xDC00 + (n - 0x10000) % 0x400)) = true := by
      rw [isTail, hv, and_eq_true, decide_eq_true_iff, decide_eq_true_iff]
      omega
    have hp : pair (UInt16.ofNat (0xD800 + (n - 0x10000) / 0x400))
        (UInt16.ofNat (0xDC00 + (n - 0x10000) % 0x400)) = c := by
      have hsm : 0x10000 + (0xD800 + (n - 0x10000) / 0x400 - 0xD800) * 0x400 +
          (0xDC00 + (n - 0x10000) % 0x400 - 0xDC00) = n := by omega
      rw [pair, hu, hv, hsm, hc]
    rw [if_neg hn, List.cons_append, List.singleton_append, decode, hl, ht, hp]
    rfl

theorem decode_encode (cs : List Char) : decode (encode cs) = cs := by
  induction cs with
  | nil => rfl
  | cons c cs ih =>
    show decode (encodeChar c ++ encode cs) = _
    rw [decode_encodeChar, ih]

theorem encode_injective {cs cs' : List Char} (h : encode cs = encode cs') : cs = cs' := by
  rw [← decode_encode cs, h, decode_encode]

end Utf16
