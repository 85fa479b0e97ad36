import DartSdk.Http.HttpHeaders

/-!
# The HTTP parser

`_HttpParser` of `sdk/lib/_http/http_parser.dart`: the bytes of a connection come in buffers
(`onData`), and the parser cuts them into messages, each with its headers and its body.

The loop of `_doParse` is over the rest of the buffer. The listeners are taken to resume the parser
as soon as it pauses, so `parse` calls `doParse` again when that returned at the end of a head. The
parsing of the request's URI is a parameter.
-/

namespace Http

open HttpMessage (ascii)

namespace CharCode

def HT : UInt8 := 9
def LF : UInt8 := 10
def CR : UInt8 := 13
def SP : UInt8 := 32
def COMMA : UInt8 := 44
def SLASH : UInt8 := 47
def ZERO : UInt8 := 48
def ONE : UInt8 := 49
def COLON : UInt8 := 58
def SEMI_COLON : UInt8 := 59

end CharCode

open CharCode

namespace Const

def HTTP : List UInt8 := ascii "HTTP"
def HTTP1DOT : List UInt8 := ascii "HTTP/1."
def HTTP11 : List UInt8 := ascii "HTTP/1.1"

/-- The characters that `SEPARATOR_MAP` maps to true. -/
def separators : List UInt8 := ascii "()<>@,;:\\\"/[]?=\x7b\x7d \t"

end Const

/-- `_State`, in the order of its numbers. -/
inductive State where
  | start | methodOrResponseHttpVersion | responseHttpVersion | requestLineMethod | requestLineUri
  | requestLineHttpVersion | requestLineEnding | responseLineStatusCode | responseLineReasonPhrase
  | responseLineEnding | headerStart | headerField | headerValueStart | headerValue
  | headerValueFoldOrEndCr | headerValueFoldOrEnd | headerEnding
  | chunkSizeStartingCr | chunkSizeStarting | chunkSize | chunkSizeExtension | chunkSizeEnding
  | chunkedBodyDoneCr | chunkedBodyDone | body | closed | upgraded | failure
  deriving DecidableEq, Repr

/-- `_HttpVersion`. -/
inductive HttpVersion where
  | undetermined | http10 | http11
  deriving DecidableEq, Repr

namespace MessageType

def UNDETERMINED : Nat := 0
def REQUEST : Nat := 1
/-- The same number as `UNDETERMINED`. -/
def RESPONSE : Nat := 0

end MessageType

/-- `_HttpIncoming`: a message and what came of its body. -/
structure HttpIncoming (Uri : Type) where
  headers : HttpHeaders
  transferLength : Int
  method : List UInt8 := []
  uri : Option Uri := none
  statusCode : Nat := 0
  reasonPhrase : List UInt8 := []
  upgraded : Bool := false
  data : List UInt8 := []
  deriving DecidableEq, Repr

structure HttpParser (Uri : Type) where
  requestParser : Bool
  state : State := .start
  /-- Null in the source before the first use. -/
  httpVersionIndex : Nat := 0
  messageType : Nat := MessageType.UNDETERMINED
  statusCode : Nat := 0
  statusCodeLength : Nat := 0
  method : List UInt8 := []
  uriOrReasonPhrase : List UInt8 := []
  headerField : List UInt8 := []
  headerValue : List UInt8 := []
  headersReceivedSize : Nat := 0
  httpVersion : HttpVersion := .undetermined
  transferLength : Int := -1
  persistentConnection : Bool := false
  connectionUpgrade : Bool := false
  chunked : Bool := false
  noMessageBody : Bool := false
  remainingContent : Int := -1
  contentLength : Bool := false
  transferEncoding : Bool := false
  connectMethod : Bool := false
  headers : Option HttpHeaders := none
  incoming : Option (HttpIncoming Uri) := none
  /-- The messages that are complete. -/
  closed : List (HttpIncoming Uri) := []
  /-- What is left of the buffer after an upgrade. -/
  unparsed : List UInt8 := []
  deriving DecidableEq, Repr

namespace HttpParser

def headerTotalSizeLimit : Nat := 1024 * 1024

def chunkSizeLimit : Int := 0x7FFFFFFF

section

variable {Uri : Type}

/-- `_HttpParser.requestParser()`. -/
def ofRequests : HttpParser Uri := { requestParser := true }

variable (parseUri : List UInt8 → Option Uri) (p : HttpParser Uri) (byte : UInt8)
  (headers : HttpHeaders)

def version : Option ProtocolVersion :=
  match p.httpVersion with
  | .http10 => some .http10
  | .http11 => some .http11
  | .undetermined => none

/-! ## Bytes -/

def isTokenChar (byte : UInt8) : Bool := byte > 31 ∧ byte < 128 ∧ byte ∉ Const.separators

def toLowerCaseByte (x : UInt8) : UInt8 := if (x - 0x41) &&& 0x7f < 26 then x ||| 0x20 else x

/-- The loop over the two lists, which have the same length. -/
def caseInsensitiveCompare (expected value : List UInt8) : Bool :=
  expected.length = value.length ∧ expected = value.map toLowerCaseByte

def removeTrailingSpaces (value : List UInt8) : List UInt8 :=
  value.rdropWhile fun byte => byte = SP ∨ byte = HT

/-- The loop of `_tokenizeFieldValue`, with the index `index` of the first of the bytes left. -/
def tokenizeLoop (headerValue : List UInt8) :
    List UInt8 → Nat → Nat → List (List UInt8) → List (List UInt8)
  | [], start, index, tokens => tokens ++ [(headerValue.take index).drop start]
  | byte :: rest, start, index, tokens =>
    if byte = COMMA then
      tokenizeLoop headerValue rest (index + 1) (index + 1)
        (tokens ++ [(headerValue.take index).drop start])
    else if byte = SP ∨ byte = HT then tokenizeLoop headerValue rest (start + 1) (index + 1) tokens
    else tokenizeLoop headerValue rest start (index + 1) tokens

def tokenizeFieldValue (headerValue : List UInt8) : List (List UInt8) :=
  tokenizeLoop headerValue headerValue 0 0 []

def expect (val1 val2 : UInt8) : Except HttpError Unit :=
  if val1 ≠ val2 then
    .error (.httpException s!"Failed to parse HTTP, {val1} does not match {val2}")
  else .ok ()

def expectHexDigit (byte : UInt8) : Except HttpError Nat :=
  if 0x30 ≤ byte ∧ byte ≤ 0x39 then .ok (byte.toNat - 0x30)
  else if 0x41 ≤ byte ∧ byte ≤ 0x46 then .ok (byte.toNat - 0x41 + 10)
  else if 0x61 ≤ byte ∧ byte ≤ 0x66 then .ok (byte.toNat - 0x61 + 10)
  else .error (.httpException s!"Failed to parse HTTP, {byte} is expected to be a Hex digit")

/-- What `_reportSizeLimitError` throws. -/
def sizeLimitError (state : State) : HttpError :=
  let exceeds (method : String) :=
    HttpError.httpException (method ++ s!" exceeds the {headerTotalSizeLimit} size limit")
  match state with
  | .start | .methodOrResponseHttpVersion | .requestLineMethod => exceeds "Method"
  | .requestLineUri => exceeds "URI"
  | .responseLineReasonPhrase => exceeds "Reason phrase"
  | .headerStart | .headerField => exceeds "Header field"
  | .headerValueStart | .headerValue => exceeds "Header value"
  | _ => .unsupportedError s!"Unexpected state: {state.ctorIdx}"

/-- The lists of bytes that the parser collects. -/
inductive Collected where
  | method | uriOrReasonPhrase | headerField | headerValue
  deriving DecidableEq, Repr

def push : Collected → HttpParser Uri
  | .method => { p with method := p.method ++ [byte] }
  | .uriOrReasonPhrase => { p with uriOrReasonPhrase := p.uriOrReasonPhrase ++ [byte] }
  | .headerField => { p with headerField := p.headerField ++ [byte] }
  | .headerValue => { p with headerValue := p.headerValue ++ [byte] }

def addWithValidation (list : Collected) (byte : UInt8) : Except HttpError (HttpParser Uri) :=
  if p.headersReceivedSize + 1 < headerTotalSizeLimit then
    .ok (push { p with headersReceivedSize := p.headersReceivedSize + 1 } byte list)
  else .error (sizeLimitError p.state)

def addAllWithValidation (list : Collected) (bytes : List UInt8) :
    Except HttpError (HttpParser Uri) :=
  bytes.foldlM (fun p byte => p.addWithValidation list byte) p

def withState (state : State) : HttpParser Uri := { p with state }

/-! ## Messages -/

def reset : HttpParser Uri :=
  if p.state = .upgraded then p else
  { p with
    state := .start
    messageType := MessageType.UNDETERMINED
    headerField := []
    headerValue := []
    headersReceivedSize := 0
    method := []
    uriOrReasonPhrase := []
    statusCode := 0
    statusCodeLength := 0
    httpVersion := .undetermined
    transferLength := -1
    persistentConnection := false
    connectionUpgrade := false
    chunked := false
    noMessageBody := false
    remainingContent := -1
    contentLength := false
    transferEncoding := false
    headers := none }

def closeIncoming : HttpParser Uri :=
  { p with incoming := none, closed := p.closed ++ p.incoming.toList }

/-- What the loop of `_doParse` does after a byte: it goes on with the next one, it reads the same
one again (`_index - 1`), or it returns. -/
inductive Next where
  | proceed | again | leave
  deriving DecidableEq, Repr

/-- The parser after a byte. -/
abbrev Progress (Uri : Type) := HttpParser Uri × Next

/-- A successful response to `CONNECT` has no body, whatever its headers say. -/
def ignoreBodyHeaders : Except HttpError HttpHeaders :=
  if ¬ p.requestParser ∧ p.statusCode ≥ 200 ∧ p.statusCode < 300 ∧ p.connectMethod then do
    let headers ← headers.setChunkedTransferEncoding HttpHeaders.callDepth false
    let headers ← headers.removeAll HttpHeaders.contentLengthHeader
    headers.removeAll HttpHeaders.transferEncodingHeader
  else .ok headers

/-- `_transferLength` at the end of the headers. -/
def decideTransferLength : Int :=
  if p.connectionUpgrade then 0
  else if p.chunked then -1
  else if p.messageType = MessageType.REQUEST ∧ headers.contentLength < 0 then 0
  else headers.contentLength

/-- The `_HttpIncoming` with the request line or the status line. -/
def createIncoming (transferLength : Int) : Except HttpError (HttpIncoming Uri) :=
  if p.requestParser then
    match parseUri p.uriOrReasonPhrase with
    | none => .error .formatException
    | some uri => .ok { headers, transferLength, method := p.method, uri := some uri }
  else
    .ok { headers, transferLength, statusCode := p.statusCode,
          reasonPhrase := p.uriOrReasonPhrase }

/-- `_headersEnd` once the message is there. -/
def startBody (incoming : HttpIncoming Uri) : HttpParser Uri × Next :=
  let p := { p with incoming := some incoming, method := [], uriOrReasonPhrase := [] }
  if p.connectionUpgrade then
    (closeIncoming { p with
      state := .upgraded, incoming := some { incoming with upgraded := true } }, .leave)
  else if p.transferLength = 0 ∨ (p.messageType = MessageType.RESPONSE ∧ p.noMessageBody) then
    (p.reset.closeIncoming, .proceed)
  else if p.chunked then ({ p with state := .chunkSize, remainingContent := 0 }, .leave)
  else if p.transferLength > 0 then
    ({ p with state := .body, remainingContent := p.transferLength }, .leave)
  else ({ p with state := .body }, .leave)

def headersEnd : Except HttpError (Progress Uri) :=
  match p.headers with
  | none => .error .nullCheck
  | some headers =>
    -- `_chunked` is cleared only where the headers of a response to `CONNECT` are ignored.
    let p := if ¬ p.requestParser ∧ p.statusCode ≥ 200 ∧ p.statusCode < 300 ∧ p.connectMethod then
      { p with chunked := false } else p
    (p.ignoreBodyHeaders headers).bind fun headers =>
      let headers := { headers with mutable := false }
      let transferLength := p.decideTransferLength headers
      (p.createIncoming parseUri headers transferLength).map fun incoming =>
        startBody { p with headers := some headers, transferLength } incoming

/-! ## The states of the start line -/

def readStart : Except HttpError (Progress Uri) :=
  if Const.HTTP[0]? = some byte then
    .ok ({ p with httpVersionIndex := 1, state := .methodOrResponseHttpVersion }, .proceed)
  else if ¬ isTokenChar byte then .error (.httpException "Invalid request method")
  else do
    let p ← p.addWithValidation .method byte
    if ¬ p.requestParser then .error (.httpException "Invalid response line")
    else .ok (p.withState .requestLineMethod, .proceed)

def readMethodOrResponseHttpVersion : Except HttpError (Progress Uri) :=
  if p.httpVersionIndex < Const.HTTP.length ∧
      Const.HTTP[p.httpVersionIndex]? = some byte then
    .ok ({ p with httpVersionIndex := p.httpVersionIndex + 1 }, .proceed)
  else if p.httpVersionIndex = Const.HTTP.length ∧ byte = SLASH then
    if p.requestParser then .error (.httpException "Invalid request line")
    else
      .ok ({ p with httpVersionIndex := p.httpVersionIndex + 1, state := .responseHttpVersion },
        .proceed)
  else do
    let p ← p.addAllWithValidation .method (Const.HTTP.take p.httpVersionIndex)
    if byte = SP then .ok (p.withState .requestLineUri, .proceed)
    else do
      let p ← p.addWithValidation .method byte
      if ¬ p.requestParser then .error (.httpException "Invalid response line")
      else .ok ({ p with httpVersion := .undetermined, state := .requestLineMethod }, .proceed)

/-- The byte of the version's prefix at the index. -/
def expectVersionByte (versionText : List UInt8) (index : Nat) : Except HttpError Unit :=
  match versionText[index]? with
  | some expected => expect byte expected
  | none => .error .nullCheck

def readResponseHttpVersion : Except HttpError (Progress Uri) :=
  if p.httpVersionIndex < Const.HTTP1DOT.length then do
    expectVersionByte byte Const.HTTP1DOT p.httpVersionIndex
    .ok ({ p with httpVersionIndex := p.httpVersionIndex + 1 }, .proceed)
  else if p.httpVersionIndex = Const.HTTP1DOT.length ∧ byte = ONE then
    .ok ({ p with httpVersion := .http11, persistentConnection := true,
                  httpVersionIndex := p.httpVersionIndex + 1 }, .proceed)
  else if p.httpVersionIndex = Const.HTTP1DOT.length ∧ byte = ZERO then
    .ok ({ p with httpVersion := .http10, persistentConnection := false,
                  httpVersionIndex := p.httpVersionIndex + 1 }, .proceed)
  else if p.httpVersionIndex = Const.HTTP1DOT.length + 1 then do
    expect byte SP
    .ok (p.withState .responseLineStatusCode, .proceed)
  else .error (.httpException "Invalid response line, failed to parse HTTP version")

def readRequestLineMethod : Except HttpError (Progress Uri) :=
  if byte = SP then .ok (p.withState .requestLineUri, .proceed)
  else if byte ∈ Const.separators ∨ byte = CR ∨ byte = LF then
    .error (.httpException "Invalid request method")
  else (p.addWithValidation .method byte).map (·, .proceed)

def readRequestLineUri : Except HttpError (Progress Uri) :=
  if byte = SP then
    if p.uriOrReasonPhrase = [] then .error (.httpException "Invalid request, empty URI")
    else .ok ({ p with state := .requestLineHttpVersion, httpVersionIndex := 0 }, .proceed)
  else if byte = CR ∨ byte = LF then
    .error (.httpException s!"Invalid request, unexpected {byte} in URI")
  else (p.addWithValidation .uriOrReasonPhrase byte).map (·, .proceed)

/-- The end of a line: CR goes to the state, LF does and is seen again there. -/
def lineEnd (state : State) (other : Except HttpError (Progress Uri)) :
    Except HttpError (Progress Uri) :=
  if byte = CR then .ok (p.withState state, .proceed)
  else if byte = LF then .ok (p.withState state, .again)
  else other

def readRequestLineHttpVersion : Except HttpError (Progress Uri) :=
  if p.httpVersionIndex < Const.HTTP1DOT.length then do
    expectVersionByte byte Const.HTTP11 p.httpVersionIndex
    .ok ({ p with httpVersionIndex := p.httpVersionIndex + 1 }, .proceed)
  else if p.httpVersionIndex = Const.HTTP1DOT.length then
    if byte = ONE then
      .ok ({ p with httpVersion := .http11, persistentConnection := true,
                    httpVersionIndex := p.httpVersionIndex + 1 }, .proceed)
    else if byte = ZERO then
      .ok ({ p with httpVersion := .http10, persistentConnection := false,
                    httpVersionIndex := p.httpVersionIndex + 1 }, .proceed)
    else .error (.httpException "Invalid response, invalid HTTP version")
  else p.lineEnd byte .requestLineEnding (.ok (p, .proceed))

def readRequestLineEnding : Except HttpError (Progress Uri) := do
  expect byte LF
  .ok ({ p with messageType := MessageType.REQUEST, state := .headerStart }, .proceed)

def readResponseLineStatusCode : Except HttpError (Progress Uri) :=
  if byte = SP then .ok (p.withState .responseLineReasonPhrase, .proceed)
  else p.lineEnd byte .responseLineEnding <|
    if byte < 0x30 ∨ byte > 0x39 then
      .error (.httpException s!"Invalid response status code with {byte}")
    else if p.statusCodeLength + 1 > 3 then
      .error (.httpException "Invalid response, status code is over 3 digits")
    else
      .ok ({ p with statusCodeLength := p.statusCodeLength + 1
                    statusCode := p.statusCode * 10 + byte.toNat - 0x30 }, .proceed)

def readResponseLineReasonPhrase : Except HttpError (Progress Uri) :=
  p.lineEnd byte .responseLineEnding <|
    (p.addWithValidation .uriOrReasonPhrase byte).map (·, .proceed)

/-- The message type is compared here, not set. -/
def readResponseLineEnding : Except HttpError (Progress Uri) := do
  expect byte LF
  .ok ({ p with
    state := .headerStart
    noMessageBody := p.noMessageBody ∨ p.statusCode ≤ 199 ∨ p.statusCode = 204 ∨
      p.statusCode = 304 }, .proceed)

/-! ## The states of the header fields -/

/-- The first byte of a header line that does not continue a field. -/
def headerLine : Except HttpError (Progress Uri) :=
  p.lineEnd byte .headerEnding <|
    ((p.withState .headerField).addWithValidation .headerField (toLowerCaseByte byte)).map
      (·, .proceed)

def readHeaderStart : Except HttpError (Progress Uri) :=
  match p.version with
  | none => .error .nullCheck
  | some version => headerLine { p with headers := some (HttpHeaders.create version) } byte

def readHeaderField : Except HttpError (Progress Uri) :=
  if byte = COLON then .ok (p.withState .headerValueStart, .proceed)
  else if ¬ isTokenChar byte then
    .error (.httpException s!"Invalid header field name, with {byte}")
  else (p.addWithValidation .headerField (toLowerCaseByte byte)).map (·, .proceed)

def readHeaderValueStart : Except HttpError (Progress Uri) :=
  if byte = CR then .ok (p.withState .headerValueFoldOrEndCr, .proceed)
  else if byte = LF then .ok (p.withState .headerValueFoldOrEnd, .proceed)
  else if byte ≠ SP ∧ byte ≠ HT then
    (p.addWithValidation .headerValue byte).map fun p => (p.withState .headerValue, .proceed)
  else .ok (p, .proceed)

def readHeaderValue : Except HttpError (Progress Uri) :=
  if byte = CR then .ok (p.withState .headerValueFoldOrEndCr, .proceed)
  else if byte = LF then .ok (p.withState .headerValueFoldOrEnd, .proceed)
  else (p.addWithValidation .headerValue byte).map (·, .proceed)

def readHeaderValueFoldOrEndCr : Except HttpError (Progress Uri) := do
  expect byte LF
  .ok (p.withState .headerValueFoldOrEnd, .proceed)

/-- The flags for the framing of the body, with the value without its trailing spaces. -/
def noteFraming : Except HttpError (HttpParser Uri) :=
  if p.headerField = HttpHeaders.contentLengthHeader then
    if p.contentLength then
      .error (.httpException ("The Content-Length header occurred " ++
        "more than once, at most one is allowed."))
    else .ok { p with contentLength := ¬ p.transferEncoding }
  else if p.headerField = HttpHeaders.transferEncodingHeader then
    .ok { p with
      transferEncoding := true
      chunked := p.chunked ∨ caseInsensitiveCompare (ascii "chunked") p.headerValue
      contentLength := false }
  else .ok p

/-- One token of a `connection` header. -/
def connectionToken (token : List UInt8) : HttpParser Uri :=
  let isResponse := p.messageType = MessageType.RESPONSE
  let isUpgradeCode := p.statusCode = 426 ∨ p.statusCode = 101
  let isUpgrade := caseInsensitiveCompare (ascii "upgrade") token
  { p with
    connectionUpgrade := p.connectionUpgrade ∨ (isUpgrade ∧ ¬ isResponse) ∨
      (isUpgrade ∧ isResponse ∧ isUpgradeCode)
    headers := some (headers.addConnection p.headerField token) }

def connectionTokens (p : HttpParser Uri) (headers : HttpHeaders) :
    List (List UInt8) → HttpParser Uri
  | [] => p
  | token :: tokens =>
    let p := p.connectionToken headers token
    connectionTokens p (headers.addConnection p.headerField token) tokens

/-- The field goes into the header table. -/
def tableField : Except HttpError (HttpParser Uri) :=
  match p.headers with
  | none => .error .nullCheck
  | some headers =>
    if p.headerField = HttpHeaders.connectionHeader then
      .ok (p.connectionTokens headers (tokenizeFieldValue p.headerValue))
    else if p.headerField ≠ HttpHeaders.contentLengthHeader ∨ ¬ p.transferEncoding then
      (headers.add p.headerField p.headerValue).map fun headers =>
        { p with headers := some headers }
    else .ok p

/-- The end of a header field. -/
def fieldEnd : Except HttpError (HttpParser Uri) := do
  let p ← noteFraming { p with headerValue := removeTrailingSpaces p.headerValue }
  let p ← p.tableField
  return { p with headerField := [], headerValue := [] }

def readHeaderValueFoldOrEnd : Except HttpError (Progress Uri) :=
  if byte = SP ∨ byte = HT then
    (p.addWithValidation .headerValue SP).map fun p => (p.withState .headerValueStart, .proceed)
  else p.fieldEnd.bind (headerLine · byte)

def readHeaderEnding : Except HttpError (Progress Uri) := do
  expect byte LF
  p.headersEnd parseUri

/-! ## The states of the body -/

def readChunkSizeStartingCr : Except HttpError (Progress Uri) :=
  if byte = LF then .ok (p.withState .chunkSizeStarting, .again)
  else do
    expect byte CR
    .ok (p.withState .chunkSizeStarting, .proceed)

def readChunkSizeStarting : Except HttpError (Progress Uri) := do
  expect byte LF
  .ok (p.withState .chunkSize, .proceed)

def readChunkSize : Except HttpError (Progress Uri) :=
  p.lineEnd byte .chunkSizeEnding <|
    if byte = SEMI_COLON then .ok (p.withState .chunkSizeExtension, .proceed)
    else do
      let value ← expectHexDigit byte
      if p.remainingContent > chunkSizeLimit / 16 then
        .error (.httpException "Chunk size overflows the integer")
      else .ok ({ p with remainingContent := p.remainingContent * 16 + value }, .proceed)

def readChunkSizeExtension : Except HttpError (Progress Uri) :=
  p.lineEnd byte .chunkSizeEnding (.ok (p, .proceed))

def readChunkSizeEnding : Except HttpError (Progress Uri) := do
  expect byte LF
  .ok (p.withState (if p.remainingContent > 0 then .body else .chunkedBodyDoneCr), .proceed)

def readChunkedBodyDoneCr : Except HttpError (Progress Uri) :=
  if byte = LF then .ok (p.withState .chunkedBodyDone, .again)
  else do
    expect byte CR
    .ok (p, .proceed)

def readChunkedBodyDone : Except HttpError (Progress Uri) := do
  expect byte LF
  .ok (p.reset.closeIncoming, .proceed)

/-- How many bytes of the body are in the buffer. -/
def dataAvailable (buffer : List UInt8) : Nat :=
  if p.remainingContent ≥ 0 ∧ buffer.length > p.remainingContent then p.remainingContent.toNat
  else buffer.length

/-- The data goes to the listener of the body. -/
def receive (data : List UInt8) : HttpParser Uri :=
  { p with
    incoming := p.incoming.map fun m => { m with data := m.data ++ data }
    remainingContent :=
      if p.remainingContent ≠ -1 then p.remainingContent - data.length else p.remainingContent }

/-- A block of the body. -/
def readBody (data : List UInt8) : HttpParser Uri :=
  let p := p.receive data
  if p.remainingContent = 0 then
    if ¬ p.chunked then p.reset.closeIncoming else p.withState .chunkSizeStartingCr
  else p

/-! ## The loop -/

/-- The switch of `_doParse`, without the state `BODY`. -/
def readByte : Except HttpError (Progress Uri) :=
  match p.state with
  | .start => p.readStart byte
  | .methodOrResponseHttpVersion => p.readMethodOrResponseHttpVersion byte
  | .responseHttpVersion => p.readResponseHttpVersion byte
  | .requestLineMethod => p.readRequestLineMethod byte
  | .requestLineUri => p.readRequestLineUri byte
  | .requestLineHttpVersion => p.readRequestLineHttpVersion byte
  | .requestLineEnding => p.readRequestLineEnding byte
  | .responseLineStatusCode => p.readResponseLineStatusCode byte
  | .responseLineReasonPhrase => p.readResponseLineReasonPhrase byte
  | .responseLineEnding => p.readResponseLineEnding byte
  | .headerStart => p.readHeaderStart byte
  | .headerField => p.readHeaderField byte
  | .headerValueStart => p.readHeaderValueStart byte
  | .headerValue => p.readHeaderValue byte
  | .headerValueFoldOrEndCr => p.readHeaderValueFoldOrEndCr byte
  | .headerValueFoldOrEnd => p.readHeaderValueFoldOrEnd byte
  | .headerEnding => p.readHeaderEnding parseUri byte
  | .chunkSizeStartingCr => p.readChunkSizeStartingCr byte
  | .chunkSizeStarting => p.readChunkSizeStarting byte
  | .chunkSize => p.readChunkSize byte
  | .chunkSizeExtension => p.readChunkSizeExtension byte
  | .chunkSizeEnding => p.readChunkSizeEnding byte
  | .chunkedBodyDoneCr => p.readChunkedBodyDoneCr byte
  | .chunkedBodyDone => p.readChunkedBodyDone byte
  -- `BODY` is read in blocks, and the loop ends in the other states.
  | .body | .closed | .upgraded | .failure => .ok (p, .proceed)

/-- The loop of `_doParse`: the parser and what is left of the buffer. -/
def doParseLoop : Nat → HttpParser Uri → List UInt8 → Except HttpError (HttpParser Uri × List UInt8)
  | 0, p, buffer => .ok (p, buffer)
  | _, p, [] => .ok (p, [])
  | fuel + 1, p, byte :: rest =>
    if p.state = .failure ∨ p.state = .upgraded then .ok (p, byte :: rest)
    else if p.state = .body then
      let available := p.dataAvailable (byte :: rest)
      doParseLoop fuel (p.readBody ((byte :: rest).take available)) ((byte :: rest).drop available)
    else
      match p.readByte parseUri byte with
      | .error e => .error e
      | .ok (p, .proceed) => doParseLoop fuel p rest
      | .ok (p, .again) => doParseLoop fuel p (byte :: rest)
      | .ok (p, .leave) => .ok (p, rest)

def doParse (buffer : List UInt8) : Except HttpError (HttpParser Uri × List UInt8) :=
  if p.state = .closed then .error (.httpException "Data on closed connection")
  else if p.state = .failure then .error (.httpException "Data on failed connection")
  else doParseLoop parseUri (2 * buffer.length) p buffer

/-- `_parse`, and again when the listener of a body resumes the parser. After an upgrade the rest of
the buffer is not parsed. -/
def parse : Nat → HttpParser Uri → List UInt8 → Except HttpError (HttpParser Uri)
  | 0, p, _ => .ok p
  | fuel + 1, p, buffer =>
    match p.doParse parseUri buffer with
    | .error e => .error e
    | .ok (p, rest) =>
      if p.state = .upgraded then .ok { p with unparsed := p.unparsed ++ rest }
      else if rest = [] then .ok p
      else parse fuel p rest

/-- `_onData`. -/
def onData (buffer : List UInt8) : Except HttpError (HttpParser Uri) :=
  parse parseUri (buffer.length + 1) p buffer

/-- The buffers of a connection. -/
def onDataAll (buffers : List (List UInt8)) : Except HttpError (HttpParser Uri) :=
  buffers.foldlM (onData parseUri) p

end

end HttpParser

end Http
