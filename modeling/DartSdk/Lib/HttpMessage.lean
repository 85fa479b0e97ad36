import Mathlib.Data.List.DropRight
import Mathlib.Tactic.Ring

/-!
# The framing of HTTP/1.1 requests

A request head is a request line and header fields; `RequestHead.bytes` writes it out, with CRLF or
a single LF at the end of each line and with the obsolete folding of field values. `framing` says
from the header fields how long the body after the head is, and `Framing.Delimits` what such a body
looks like: so many bytes, or chunks up to an empty one and the trailer fields.
-/

namespace HttpMessage

def ascii (s : String) : List UInt8 := s.toList.map fun c => UInt8.ofNat c.toNat

/-! ## Lines and fields -/

/-- A line and its end, which is CRLF or a single LF. -/
structure Line where
  text : List UInt8
  crlf : Bool
  plain : ∀ b ∈ text, b ≠ 13 ∧ b ≠ 10

/-- The end of a line. -/
def eol (crlf : Bool) : List UInt8 := if crlf then [13, 10] else [10]

def Line.bytes (l : Line) : List UInt8 := l.text ++ eol l.crlf

/-- Space or tab. -/
def isBlank (b : UInt8) : Bool := b = 32 ∨ b = 9

def isTokenChar (b : UInt8) : Bool :=
  (48 ≤ b ∧ b ≤ 57) ∨ (65 ≤ b ∧ b ≤ 90) ∨ (97 ≤ b ∧ b ≤ 122) ∨ b ∈ ascii "!#$%&'*+-.^_`|~"

/-- A header field: its name, the line after the colon, and the lines that continue it. -/
structure Field where
  name : List UInt8
  first : Line
  folds : List Line
  name_ne_nil : name ≠ []
  name_token : ∀ b ∈ name, isTokenChar b = true
  /-- A line that begins with a space or a tab continues the field. -/
  folds_blank : ∀ l ∈ folds, ∃ b text, l.text = b :: text ∧ isBlank b = true

def Field.bytes (f : Field) : List UInt8 :=
  f.name ++ 58 :: (f.first.bytes ++ f.folds.flatMap Line.bytes)

def skipBlank (text : List UInt8) : List UInt8 := text.dropWhile isBlank

def trim (text : List UInt8) : List UInt8 := (skipBlank text).rdropWhile isBlank

/-- The value with one space for each folding. -/
def Field.unfolded (f : Field) : List UInt8 :=
  skipBlank f.first.text ++ f.folds.flatMap fun l => 32 :: skipBlank l.text

def Field.value (f : Field) : List UInt8 := trim f.unfolded

def lowerCase (b : UInt8) : UInt8 := if 65 ≤ b ∧ b ≤ 90 then b + 32 else b

/-- Names of fields are compared without regard to the case of letters. -/
def Field.named (name : List UInt8) (f : Field) : Bool := f.name.map lowerCase = name

/-- The elements of a comma-separated list, the empty ones left out. A comma in the quoted value of
a parameter does not matter for the question whether the last element is a given token. -/
def elements (value : List UInt8) : List (List UInt8) :=
  ((value.splitOn 44).map trim).filter (· ≠ [])

/-! ## Framing -/

inductive Framing where
  | chunked
  | length (n : Nat)
  deriving DecidableEq, Repr

def isTransferEncoding (f : Field) : Bool := f.named (ascii "transfer-encoding")

def isContentLength (f : Field) : Bool := f.named (ascii "content-length")

/-- All transfer codings, in the order in which they were applied. -/
def transferCodings (fields : List Field) : List (List UInt8) :=
  (fields.filter isTransferEncoding).flatMap fun f => elements (f.value.map lowerCase)

def finallyChunked (fields : List Field) : Prop :=
  (transferCodings fields).getLast? = some (ascii "chunked")

instance (fields : List Field) : Decidable (finallyChunked fields) :=
  inferInstanceAs (Decidable (_ = _))

def isDigit (b : UInt8) : Bool := 48 ≤ b ∧ b ≤ 57

/-- The number that is written with decimal digits only. -/
def decimal (text : List UInt8) : Option Nat :=
  if text ≠ [] ∧ text.all isDigit then
    some (text.foldl (fun n b => n * 10 + (b.toNat - 48)) 0)
  else none

/-- The length that a list of `Content-Length` fields gives; more than one of them, or one that is
not a number, is an error. -/
def lengthFraming : List Field → Option Framing
  | [] => some (.length 0)
  | [f] => (decimal f.value).map .length
  | _ => none

/-- **The framing of a request body**: chunked if that is the final transfer coding, otherwise by
the single `Content-Length`, otherwise empty. -/
def framing (fields : List Field) : Option Framing :=
  if finallyChunked fields then some .chunked
  else lengthFraming (fields.filter isContentLength)

/-! ## Bodies -/

def hexDigit (b : UInt8) : Option Nat :=
  if 48 ≤ b ∧ b ≤ 57 then some (b.toNat - 48)
  else if 65 ≤ b ∧ b ≤ 70 then some (b.toNat - 55)
  else if 97 ≤ b ∧ b ≤ 102 then some (b.toNat - 87)
  else none

/-- The line before a chunk. An extension begins with a semicolon. -/
structure ChunkSize where
  digits : List UInt8
  extension : List UInt8
  digits_ne_nil : digits ≠ []
  digits_hex : ∀ b ∈ digits, (hexDigit b).isSome
  extension_semicolon : extension = [] ∨ ∃ text, extension = 59 :: text
  extension_plain : ∀ b ∈ extension, b ≠ 13 ∧ b ≠ 10

def ChunkSize.value (c : ChunkSize) : Nat :=
  c.digits.foldl (fun n b => n * 16 + (hexDigit b).getD 0) 0

def ChunkSize.bytes (c : ChunkSize) : List UInt8 := c.digits ++ c.extension ++ [13, 10]

structure Chunk where
  size : ChunkSize
  data : List UInt8
  data_ne_nil : data ≠ []
  size_eq : size.value = data.length

def Chunk.bytes (c : Chunk) : List UInt8 := c.size.bytes ++ c.data ++ [13, 10]

structure ChunkedBody where
  chunks : List Chunk
  last : ChunkSize
  last_eq : last.value = 0
  trailer : List Field

def ChunkedBody.bytes (c : ChunkedBody) : List UInt8 :=
  c.chunks.flatMap Chunk.bytes ++ c.last.bytes ++ c.trailer.flatMap Field.bytes ++ [13, 10]

def ChunkedBody.payload (c : ChunkedBody) : List UInt8 := c.chunks.flatMap Chunk.data

/-- The bytes are a body with the payload. -/
inductive Framing.Delimits : Framing → List UInt8 → List UInt8 → Prop where
  | chunked (c : ChunkedBody) : Delimits .chunked c.bytes c.payload
  | length (body : List UInt8) : Delimits (.length body.length) body body

/-! ## Heads -/

structure RequestLine where
  method : List UInt8
  target : List UInt8
  version : List UInt8
  crlf : Bool
  method_token : ∀ b ∈ method, isTokenChar b = true
  target_plain : ∀ b ∈ target, b ≠ 32 ∧ b ≠ 13 ∧ b ≠ 10
  version_plain : ∀ b ∈ version, b ≠ 13 ∧ b ≠ 10

def RequestLine.bytes (l : RequestLine) : List UInt8 :=
  l.method ++ 32 :: (l.target ++ 32 :: (l.version ++ eol l.crlf))

structure RequestHead where
  requestLine : RequestLine
  fields : List Field
  /-- Whether the empty line at the end is a CRLF. -/
  crlf : Bool

def RequestHead.bytes (h : RequestHead) : List UInt8 :=
  h.requestLine.bytes ++ (h.fields.flatMap Field.bytes ++ eol h.crlf)

end HttpMessage
