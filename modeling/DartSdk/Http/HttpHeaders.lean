import DartSdk.Lib.HttpMessage

/-!
# The header table of an HTTP message

`_HttpHeaders` of `sdk/lib/_http/http_headers.dart`, as far as the HTTP parser uses it. Names and
values are the bytes that came over the connection. The setters of `contentLength` and
`chunkedTransferEncoding` call one another, here with a bound on the depth of the calls.
-/

namespace Http

open HttpMessage (ascii)

/-- `protocolVersion`: the strings `"1.0"` and `"1.1"`. -/
inductive ProtocolVersion where
  | http10 | http11
  deriving DecidableEq, Repr

inductive HttpError where
  | httpException (message : String)
  | formatException
  | unsupportedError (message : String)
  /-- A `!` on null. -/
  | nullCheck
  | stackOverflow
  deriving DecidableEq, Repr

structure HttpHeaders where
  protocolVersion : ProtocolVersion
  /-- `_headers`. -/
  table : List (List UInt8 × List (List UInt8)) := []
  mutable : Bool := true
  contentLength : Int := -1
  persistentConnection : Bool := true
  chunkedTransferEncoding : Bool := false
  deriving DecidableEq, Repr

namespace HttpHeaders

def connectionHeader : List UInt8 := ascii "connection"
def contentLengthHeader : List UInt8 := ascii "content-length"
def contentTypeHeader : List UInt8 := ascii "content-type"
def dateHeader : List UInt8 := ascii "date"
def expiresHeader : List UInt8 := ascii "expires"
def hostHeader : List UInt8 := ascii "host"
def ifModifiedSinceHeader : List UInt8 := ascii "if-modified-since"
def transferEncodingHeader : List UInt8 := ascii "transfer-encoding"

/-- The constructor. -/
def create (protocolVersion : ProtocolVersion) : HttpHeaders :=
  { protocolVersion, persistentConnection := protocolVersion ≠ .http10 }

variable (h : HttpHeaders) (name : List UInt8)

def values : List (List UInt8) :=
  ((h.table.find? (·.1 = name)).map Prod.snd).getD []

def erase : HttpHeaders :=
  { h with table := h.table.filter (·.1 ≠ name) }

/-- `_headers[name] = values`. -/
def put (values : List (List UInt8)) : HttpHeaders :=
  { h with table := (name, values) :: h.table.filter (·.1 ≠ name) }

variable (name value : List UInt8)

/-- `_set`. -/
def set : HttpHeaders := h.put name [value]

def addValue : HttpHeaders :=
  h.put name (h.values name ++ [value])

def checkMutable : Except HttpError Unit :=
  if h.mutable then .ok () else .error (.httpException "HTTP headers are not mutable")

def remove : Except HttpError HttpHeaders := do
  h.checkMutable
  let values := (h.values name).erase value
  let h := if values = [] then h.erase name else h.put name values
  return if name = transferEncodingHeader ∧ value = ascii "chunked" then
    { h with chunkedTransferEncoding := false } else h

def removeAll : Except HttpError HttpHeaders := do
  h.checkMutable
  return h.erase name

mutual

/-- `set contentLength`. -/
def setContentLength : Nat → HttpHeaders → Int → Except HttpError HttpHeaders
  | 0, _, _ => .error .stackOverflow
  | depth + 1, h, contentLength => do
    h.checkMutable
    if h.protocolVersion = .http10 ∧ h.persistentConnection ∧ contentLength = -1 then
      .error (.httpException ("Trying to clear ContentLength on HTTP 1.0 headers with " ++
        "'Connection: Keep-Alive' set"))
    else if h.contentLength = contentLength then .ok h
    else if contentLength ≥ 0 then
      if h.chunkedTransferEncoding then
        (setChunkedTransferEncoding depth { h with contentLength } false).map
          (set · contentLengthHeader (ascii (toString contentLength)))
      else
        .ok (set { h with contentLength } contentLengthHeader (ascii (toString contentLength)))
    else if h.protocolVersion = .http11 then
      setChunkedTransferEncoding depth (erase { h with contentLength } contentLengthHeader) true
    else .ok (erase { h with contentLength } contentLengthHeader)

/-- `set chunkedTransferEncoding`. -/
def setChunkedTransferEncoding : Nat → HttpHeaders → Bool → Except HttpError HttpHeaders
  | 0, _, _ => .error .stackOverflow
  | depth + 1, h, chunked => do
    h.checkMutable
    if chunked ∧ h.protocolVersion = .http10 then
      .error (.httpException "Trying to set 'Transfer-Encoding: Chunked' on HTTP 1.0 headers")
    else if chunked = h.chunkedTransferEncoding then .ok h
    else if chunked then
      let h := if ascii "chunked" ∈ h.values transferEncodingHeader then h
        else h.addValue transferEncodingHeader (ascii "chunked")
      (setContentLength depth h (-1)).map fun h : HttpHeaders =>
        { h with chunkedTransferEncoding := true }
    else
      (h.remove transferEncodingHeader (ascii "chunked")).map fun h : HttpHeaders =>
        { h with chunkedTransferEncoding := false }

end

/-- More than the depth of the calls of the setters. -/
def callDepth : Nat := 4

/-- `int.parse` of decimal digits. -/
def intParse (digits : List UInt8) : Except HttpError Int :=
  match HttpMessage.decimal digits with
  | none => .error .formatException
  | some n => if n < 2 ^ 63 then .ok n else .error .formatException

/-- `_digitsValidator`, which is `^\d+$`. -/
def digitsValidator (value : List UInt8) : Bool := value ≠ [] ∧ value.all HttpMessage.isDigit

def addContentLength (value : List UInt8) : Except HttpError HttpHeaders :=
  if ¬ digitsValidator value then
    .error (.httpException "Content-Length must contain only digits")
  else (intParse value).bind (setContentLength callDepth h)

def addTransferEncoding (value : List UInt8) : Except HttpError HttpHeaders :=
  if value = ascii "chunked" then setChunkedTransferEncoding callDepth h true
  else .ok (h.addValue transferEncodingHeader value)

/-- `value.toLowerCase()`, for the comparison with words of ASCII letters. -/
def toLowerCase (value : List UInt8) : List UInt8 := value.map HttpMessage.lowerCase

def addConnection : HttpHeaders :=
  let h :=
    if toLowerCase value = ascii "close" then { h with persistentConnection := false }
    else if toLowerCase value = ascii "keep-alive" then { h with persistentConnection := true }
    else h
  h.addValue name value

/-- `_add`. The header `connection` does not come here from the parser. -/
def add : Except HttpError HttpHeaders :=
  if name = dateHeader ∨ name = hostHeader ∨ name = expiresHeader ∨ name = contentTypeHeader ∨
      name = ifModifiedSinceHeader then .ok (h.set name value)
  else if name = connectionHeader then .ok (h.addConnection name value)
  else if name = contentLengthHeader then h.addContentLength value
  else if name = transferEncodingHeader then h.addTransferEncoding value
  else .ok (h.addValue name value)

end HttpHeaders

end Http
