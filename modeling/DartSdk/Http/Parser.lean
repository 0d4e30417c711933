import Mathlib.Tactic

/-!
# Http/Parser — `_HttpParser`

The parser is a state machine over the bytes of a buffer.  In most states a round of its loop takes
one byte; a state that sees the LF it waits for behind an optional CR hands it to the state after
the CR, and a body is taken in blocks.

Listeners do not pause here, so that the loop goes on after a message has been handed to them.  A
buffer that comes after an error is not parsed, for the error cancels the subscription.  After an
upgrade the parser keeps the rest of its buffer for `readUnparsedData`, and buffers that come later
go to the one who has detached the connection (`Connection`).  Strings are the lists of their code
units, and −1 in a counter is `none`.
-/

namespace Http

/-- A text as its bytes. -/
def text (s : String) : List ℕ := s.toList.map Char.toNat

/-- Line feed. -/
def lf : ℕ := 0x0A

/-- Carriage return. -/
def cr : ℕ := 0x0D

/-- `SEPARATOR_MAP`. -/
def isSeparator (byte : ℕ) : Bool := (text "()<>@,;:\\\"/[]?=\x7b\x7d \t").contains byte

/-- `_isTokenChar`. -/
def isTokenChar (byte : ℕ) : Bool := 31 < byte && byte < 128 && !isSeparator byte

/-- `_isOWS`: optional white space. -/
def isOWS (c : ℕ) : Bool := c == 0x20 || c == 0x09

/-- `_toLowerCaseByte`. -/
def toLowerCaseByte (x : ℕ) : ℕ := if (x + 128 - 0x41) % 128 < 26 then x ||| 0x20 else x

/-- `_expectHexDigit`. -/
def hexDigit (byte : ℕ) : Option ℕ :=
  if 0x30 ≤ byte ∧ byte ≤ 0x39 then some (byte - 0x30)
  else if 0x41 ≤ byte ∧ byte ≤ 0x46 then some (byte - 0x41 + 10)
  else if 0x61 ≤ byte ∧ byte ≤ 0x66 then some (byte - 0x61 + 10)
  else none

/-! ## Header fields

How values are tokenized and which fields the parser reads for itself. -/

/-- Drops the trailing bytes of a kind. -/
def removeTrailing (p : ℕ → Bool) (value : List ℕ) : List ℕ := (value.reverse.dropWhile p).reverse

/-- `_tokenizeFieldValue`, with fuel.  A comma at the start of a token is a part of it. -/
def tokenize : ℕ → List ℕ → List (List ℕ)
  | 0, _ => []
  | _, [] => []
  | fuel + 1, first :: rest =>
    removeTrailing isOWS (first :: rest.takeWhile (· ≠ 0x2C)) ::
      tokenize fuel (((rest.dropWhile (· ≠ 0x2C)).drop 1).dropWhile isOWS)

/-- `_tokenizeFieldValue`. -/
def tokenizeFieldValue (headerValue : List ℕ) : List (List ℕ) :=
  tokenize headerValue.length headerValue

/-- The characters that `String.trim` removes, of those below 256. -/
def isWhitespace (c : ℕ) : Bool := (9 ≤ c && c ≤ 13) || c == 0x20 || c == 0x85 || c == 0xA0

/-- `String.trim`. -/
def trim (s : List ℕ) : List ℕ := removeTrailing isWhitespace (s.dropWhile isWhitespace)

/-- `String.toLowerCase`, of a character below 256. -/
def toLowerCase (c : ℕ) : ℕ :=
  if 0x41 ≤ c ∧ c ≤ 0x5A ∨ 0xC0 ≤ c ∧ c ≤ 0xDE ∧ c ≠ 0xD7 then c + 32 else c

/-- `_HttpHeaders`, as far as the parser reads it: the lines that were added, and what they set. -/
structure Headers where
  /-- `protocolVersion == "1.0"`. -/
  http10 : Bool := false
  lines : List (List ℕ × List ℕ) := []
  contentLength : Option ℕ := none
  chunkedTransferEncoding : Bool := false

/-- `_addContentLength`. -/
def parseContentLength (value : List ℕ) : Except String ℕ :=
  if value = [] then .error "Unexpected type for header named content-length"
  else if ¬value.all fun c => 0x30 ≤ c && c ≤ 0x39 then
    .error "Content-Length must contain only digits"
  else if 16 ≤ (value.dropWhile (· = 0x30)).length then .error "Content-Length too large"
  else .ok (value.foldl (fun number c => number * 10 + (c - 0x30)) 0)

/-- `_add`: a length takes back `chunked`, which takes back the length. -/
def Headers.add (name value : List ℕ) (h : Headers) : Except String Headers :=
  let h := { h with lines := h.lines ++ [(name, value)] }
  if name = text "content-length" then do
    let number ← parseContentLength value
    return { h with
      contentLength := some number
      chunkedTransferEncoding := h.chunkedTransferEncoding && h.contentLength = some number }
  else if name = text "transfer-encoding" ∧ value = text "chunked" then
    if h.http10 then .error "Trying to set 'Transfer-Encoding: Chunked' on HTTP 1.0 headers"
    else .ok { h with contentLength := none, chunkedTransferEncoding := true }
  else .ok h

/-! ## The parser

The parser takes one byte at a time, except in a body. -/

/-- `_State`. -/
inductive State
  | start | methodOrResponseHttpVersion | responseHttpVersion | requestLineMethod | requestLineUri
  | requestLineHttpVersion | requestLineEnding | responseLineStatusCode | responseLineReasonPhrase
  | responseLineEnding | headerStart | headerField | headerValueStart | headerValue
  | headerValueFoldOrEndCr | headerValueFoldOrEnd | headerEnding
  | chunkSizeStartingCr | chunkSizeStarting | chunkSize | chunkSizeExtension | chunkSizeEnding
  | chunkedBodyDoneCr | chunkedBodyDone | body
  | upgraded | failure
  deriving DecidableEq

/-- `_HttpIncoming`; the version of the message is in its headers. -/
structure Message where
  method : List ℕ
  uriOrReasonPhrase : List ℕ
  statusCode : ℕ
  headers : Headers
  transferLength : Option ℕ
  upgraded : Bool

/-- What the parser is constructed with. -/
structure Config where
  requestParser : Bool
  connectMethod : Bool
  /-- `Uri.parse` does not throw. -/
  isUri : List ℕ → Bool

/-- `_HttpParser`: the state, the buffers of the current message, and what has been delivered. -/
structure Parser where
  state : State := .start
  httpVersionIndex : ℕ := 0
  /-- `_messageType == _MessageType.REQUEST`. -/
  request : Bool := false
  statusCode : ℕ := 0
  statusCodeLength : ℕ := 0
  method : List ℕ := []
  uriOrReasonPhrase : List ℕ := []
  headerField : List ℕ := []
  headerValue : List ℕ := []
  headersReceivedSize : ℕ := 0
  /-- `_httpVersion`; `some true` is HTTP/1.0. -/
  http10 : Option Bool := none
  connectionUpgrade : Bool := false
  chunked : Bool := false
  noMessageBody : Bool := false
  remainingContent : Option ℕ := none
  contentLength : Bool := false
  transferEncoding : Bool := false
  headers : Headers := {}
  /-- The messages with their bodies so far, the last one first. -/
  delivered : List (Message × List ℕ) := []
  /-- What is left of the buffer after an upgrade. -/
  unparsed : List ℕ := []
  /-- The error, and whether it goes to the body of the last message. -/
  error : Option (String × Bool) := none

namespace Parser

variable (cfg : Config)

/-- The states from `CHUNK_SIZE_STARTING_CR` to `BODY`. -/
def inBody (p : Parser) : Bool :=
  p.state matches .chunkSizeStartingCr | .chunkSizeStarting | .chunkSize | .chunkSizeExtension |
    .chunkSizeEnding | .chunkedBodyDoneCr | .chunkedBodyDone | .body

/-- An error: the parser stops; in a body, the listener of the body gets the error. -/
def fail (e : String) (p : Parser) : Parser :=
  { p with state := .failure, error := some (e, p.inBody) }

/-- `_reset`. -/
def reset (p : Parser) : Parser :=
  if p.state = .upgraded then p
  else
    { httpVersionIndex := p.httpVersionIndex, delivered := p.delivered, unparsed := p.unparsed,
      error := p.error }

/-- `_reportSizeLimitError`.  A fold of a header value is in a state that it does not expect. -/
def sizeLimitError : State → String
  | .start | .methodOrResponseHttpVersion | .requestLineMethod => exceeds "Method"
  | .requestLineUri => exceeds "URI"
  | .responseLineReasonPhrase => exceeds "Reason phrase"
  | .headerStart | .headerField => exceeds "Header field"
  | .headerValueStart | .headerValue => exceeds "Header value"
  | state => "Unsupported operation: Unexpected state: " ++ toString state.ctorIdx
where exceeds (part : String) : String := part ++ " exceeds the 1048576 size limit"

/-- `_addWithValidation`, for any of the lists. -/
def addWithValidation (add : Parser → Parser) (p : Parser) : Parser :=
  let p := { p with headersReceivedSize := p.headersReceivedSize + 1 }
  if p.headersReceivedSize < 1024 * 1024 then add p else p.fail (sizeLimitError p.state)

/-- The error of `_expect`. -/
def doesNotMatch (byte expected : ℕ) : String :=
  "Failed to parse HTTP, " ++ toString byte ++ " does not match " ++ toString expected

/-- Gives a message to the listener; nothing of its body has been read. -/
def deliver (m : Message) (p : Parser) : Parser := { p with delivered := (m, []) :: p.delivered }

/-- A successful response to CONNECT: lengths are ignored. -/
def connected (p : Parser) : Parser :=
  if !cfg.requestParser ∧ 200 ≤ p.statusCode ∧ p.statusCode < 300 ∧ cfg.connectMethod then
    { p with chunked := false, headers := { p.headers with chunkedTransferEncoding := false } }
  else p

/-- The transfer length at the end of the headers. -/
def transferLength (p : Parser) : Option ℕ :=
  let length := if p.chunked then none else p.headers.contentLength
  let length := if p.request ∧ length = none ∧ !p.chunked then some 0 else length
  if p.connectionUpgrade then some 0 else length

/-- `_createIncoming`: the message, when its headers are read. -/
def incoming (p : Parser) : Message where
  method := if cfg.requestParser then p.method else []
  uriOrReasonPhrase := p.uriOrReasonPhrase
  statusCode := p.statusCode
  headers := p.headers
  transferLength := p.transferLength
  upgraded := p.connectionUpgrade

/-- `_headersEnd`, after lengths have been ignored. -/
def startBody (p : Parser) : Parser :=
  if p.request ∧ p.transferEncoding ∧ !p.chunked then
    p.fail ("Invalid Transfer-Encoding header: chunked must be the final " ++
      "transfer coding in requests (RFC 7230 section 3.3.3 rule 3).")
  else if cfg.requestParser ∧ !cfg.isUri p.uriOrReasonPhrase then p.fail "FormatException"
  else
    let p' := { p.deliver (p.incoming cfg) with method := [], uriOrReasonPhrase := [] }
    if p.connectionUpgrade then { p' with state := .upgraded }
    else if p.transferLength = some 0 ∨ !p.request ∧ p.noMessageBody then p'.reset
    else if p.chunked then { p' with state := .chunkSize, remainingContent := some 0 }
    else { p' with
      state := .body
      remainingContent := if p.transferLength = none then p.remainingContent else p.transferLength }

/-- `_headersEnd`. -/
def headersEnd (p : Parser) : Parser := (p.connected cfg).startBody cfg

/-- The states that expect a LF. -/
def endLine (byte : ℕ) (p : Parser) : Parser :=
  if byte ≠ lf then p.fail (doesNotMatch byte lf)
  else match p.state with
    | .requestLineEnding => { p with request := true, state := .headerStart }
    | .responseLineEnding =>
      { p with
        noMessageBody :=
          p.noMessageBody || p.statusCode ≤ 199 || p.statusCode = 204 || p.statusCode = 304
        state := .headerStart }
    | .headerEnding => p.headersEnd cfg
    | .chunkSizeStarting => { p with state := .chunkSize }
    | .chunkSizeEnding =>
      { p with state := if 0 < p.remainingContent.getD 0 then .body else .chunkedBodyDoneCr }
    | .chunkedBodyDone => p.reset
    | _ => p

/-- A CR or LF at the end of a line: the new state sees a LF again. -/
def lineBreak (byte : ℕ) (ending : State) (p : Parser) : Parser :=
  if byte = cr then { p with state := ending } else { p with state := ending }.endLine cfg byte

/-- A header line is complete. -/
def headerLine (p : Parser) : Parser :=
  let name := p.headerField
  let value := removeTrailing isOWS p.headerValue
  let cleared := { p with headerField := [], headerValue := [] }
  if name = text "content-length" then
    if p.contentLength then
      p.fail "The Content-Length header occurred more than once, at most one is allowed."
    else if p.transferEncoding then cleared
    else match p.headers.add name value with
      | .error e => p.fail e
      | .ok headers => { cleared with headers, contentLength := true }
  else if name = text "connection" then
    let tokens := tokenizeFieldValue value
    { cleared with
      connectionUpgrade := p.connectionUpgrade ||
        (p.request || p.statusCode = 426 || p.statusCode = 101) &&
          tokens.any fun token => token.map toLowerCaseByte = text "upgrade"
      headers := { p.headers with lines := p.headers.lines ++ tokens.map (name, ·) } }
  else match p.headers.add name value with
    | .error e => p.fail e
    | .ok headers =>
      if name = text "transfer-encoding" then
        { cleared with
          headers, transferEncoding := true, contentLength := false
          chunked := match (tokenizeFieldValue value).getLast? with
            | none => p.chunked
            | some token => (trim token).map toLowerCase = text "chunked" }
      else { cleared with headers }

/-- The start of a header field, or of the end of the headers. -/
def fieldStart (byte : ℕ) (p : Parser) : Parser :=
  if p.state = .failure then p
  else if byte = cr ∨ byte = lf then p.lineBreak cfg byte .headerEnding
  else { p with state := .headerField }.addWithValidation fun p =>
    { p with headerField := p.headerField ++ [toLowerCaseByte byte] }

/-- `_addToHeaderValueWithValidation`, and the state after it. -/
def addToHeaderValue (byte : ℕ) (state : State) (p : Parser) : Parser :=
  if byte = 0 ∨ byte = lf ∨ byte = cr then
    p.fail ("Illegal value " ++ toString byte ++ " in HTTP header")
  else p.addWithValidation fun p => { p with headerValue := p.headerValue ++ [byte], state }

/-- Appends a byte to the method. -/
def addMethod (byte : ℕ) : Parser → Parser :=
  addWithValidation fun p => { p with method := p.method ++ [byte], state := .requestLineMethod }

/-- Appends a byte to the URI or the reason phrase. -/
def addUriOrReasonPhrase (byte : ℕ) : Parser → Parser :=
  addWithValidation fun p => { p with uriOrReasonPhrase := p.uriOrReasonPhrase ++ [byte] }

/-- A byte of the version, or the byte after it. -/
def versionByte (byte : ℕ) (invalid : String) (next p : Parser) : Parser :=
  if p.httpVersionIndex < 7 then
    if byte = (text "HTTP/1.").getD p.httpVersionIndex 0 then
      { p with httpVersionIndex := p.httpVersionIndex + 1 }
    else p.fail (doesNotMatch byte ((text "HTTP/1.").getD p.httpVersionIndex 0))
  else if p.httpVersionIndex = 7 then
    if byte = 0x31 then { p with http10 := some false, httpVersionIndex := 8 }
    else if byte = 0x30 then { p with http10 := some true, httpVersionIndex := 8 }
    else p.fail invalid
  else next

/-- A byte in the states before the body. -/
def headByte (byte : ℕ) (p : Parser) : Parser :=
  match p.state with
  | .start =>
    if byte = 72 then { p with httpVersionIndex := 1, state := .methodOrResponseHttpVersion }
    else if !isTokenChar byte then p.fail "Invalid request method"
    else if !cfg.requestParser then p.fail "Invalid response line"
    else p.addMethod byte
  | .methodOrResponseHttpVersion =>
    if (text "HTTP")[p.httpVersionIndex]? = some byte then
      { p with httpVersionIndex := p.httpVersionIndex + 1 }
    else if p.httpVersionIndex = 4 ∧ byte = 0x2F then
      if cfg.requestParser then p.fail "Invalid request line"
      else { p with httpVersionIndex := 5, state := .responseHttpVersion }
    else
      -- Not a version: the method starts with these bytes.
      let p := ((text "HTTP").take p.httpVersionIndex).foldl (fun p byte => p.addMethod byte) p
      if byte = 0x20 then { p with state := .requestLineUri }
      else if !cfg.requestParser then p.fail "Invalid response line"
      else { p with http10 := none }.addMethod byte
  | .responseHttpVersion =>
    versionByte byte "Invalid response line, failed to parse HTTP version"
      (if byte = 0x20 then { p with state := .responseLineStatusCode }
        else p.fail (doesNotMatch byte 0x20)) p
  | .requestLineMethod =>
    if byte = 0x20 then { p with state := .requestLineUri }
    else if isSeparator byte || byte = cr || byte = lf then p.fail "Invalid request method"
    else p.addMethod byte
  | .requestLineUri =>
    if byte = 0x20 then
      if p.uriOrReasonPhrase = [] then p.fail "Invalid request, empty URI"
      else { p with state := .requestLineHttpVersion, httpVersionIndex := 0 }
    else if byte = cr ∨ byte = lf then
      p.fail ("Invalid request, unexpected " ++ toString byte ++ " in URI")
    else p.addUriOrReasonPhrase byte
  | .requestLineHttpVersion =>
    -- After the version, any byte but CR and LF is skipped.
    versionByte byte "Invalid response, invalid HTTP version"
      (if byte = cr ∨ byte = lf then p.lineBreak cfg byte .requestLineEnding else p) p
  | .responseLineStatusCode =>
    if byte = 0x20 then { p with state := .responseLineReasonPhrase }
    else if byte = cr ∨ byte = lf then p.lineBreak cfg byte .responseLineEnding
    else if byte < 0x30 ∨ 0x39 < byte then
      p.fail ("Invalid response status code with " ++ toString byte)
    else if 3 ≤ p.statusCodeLength then p.fail "Invalid response, status code is over 3 digits"
    else { p with
      statusCodeLength := p.statusCodeLength + 1
      statusCode := p.statusCode * 10 + (byte - 0x30) }
  | .responseLineReasonPhrase =>
    if byte = cr ∨ byte = lf then p.lineBreak cfg byte .responseLineEnding
    else p.addUriOrReasonPhrase byte
  | .headerStart =>
    if p.http10 = none then p.fail "Null check operator used on a null value"
    else fieldStart cfg byte { p with headers := { http10 := p.http10 = some true } }
  | .headerField =>
    if byte = 0x3A then { p with state := .headerValueStart }
    else if !isTokenChar byte then
      p.fail ("Invalid header field name, with " ++ toString byte)
    else
      p.addWithValidation fun p => { p with headerField := p.headerField ++ [toLowerCaseByte byte] }
  | .headerValueStart =>
    if byte = cr then { p with state := .headerValueFoldOrEndCr }
    else if byte = lf then { p with state := .headerValueFoldOrEnd }
    else if isOWS byte then p
    else p.addToHeaderValue byte .headerValue
  | .headerValue =>
    if byte = cr then { p with state := .headerValueFoldOrEndCr }
    else if byte = lf then { p with state := .headerValueFoldOrEnd }
    else p.addToHeaderValue byte .headerValue
  | .headerValueFoldOrEndCr =>
    if byte = lf then { p with state := .headerValueFoldOrEnd }
    else p.fail (doesNotMatch byte lf)
  | .headerValueFoldOrEnd =>
    if isOWS byte then p.addToHeaderValue 0x20 .headerValueStart
    else p.headerLine.fieldStart cfg byte
  | _ => p.endLine cfg byte

/-- A byte in the states of a chunked body, but for the data. -/
def chunkByte (byte : ℕ) (p : Parser) : Parser :=
  match p.state with
  | .chunkSizeStartingCr =>
    if byte = cr ∨ byte = lf then p.lineBreak cfg byte .chunkSizeStarting
    else p.fail (doesNotMatch byte cr)
  | .chunkSize =>
    if byte = cr ∨ byte = lf then p.lineBreak cfg byte .chunkSizeEnding
    else if byte = 0x3B then { p with state := .chunkSizeExtension }
    else match hexDigit byte with
      | none =>
        p.fail ("Failed to parse HTTP, " ++ toString byte ++ " is expected to be a Hex digit")
      | some value =>
        if 0x7FFFFFFF >>> 4 < p.remainingContent.getD 0 then
          p.fail "Chunk size overflows the integer"
        else { p with remainingContent := some (p.remainingContent.getD 0 * 16 + value) }
  | .chunkSizeExtension =>
    if byte = cr ∨ byte = lf then p.lineBreak cfg byte .chunkSizeEnding else p
  | .chunkedBodyDoneCr =>
    if byte = lf then { p with state := .chunkedBodyDone }.endLine cfg byte
    else if byte = cr then p
    else p.fail (doesNotMatch byte cr)
  | _ => p.endLine cfg byte

/-- The length of the next block of a body. -/
def dataAvailable (length : ℕ) (p : Parser) : ℕ :=
  match p.remainingContent with
  | none => length
  | some n => min length n

/-- A block of a body. -/
def bodyBlock (data : List ℕ) (p : Parser) : Parser :=
  let p := { p with
    delivered := match p.delivered with
      | (m, body) :: messages => (m, body ++ data) :: messages
      | [] => []
    remainingContent := p.remainingContent.map (· - data.length) }
  if p.remainingContent = some 0 then
    if p.chunked then { p with state := .chunkSizeStartingCr } else p.reset
  else p

/-- The loop of `_doParse`, with fuel. -/
def doParse : ℕ → List ℕ → Parser → Parser
  | 0, _, p => p
  | _, [], p => p
  | fuel + 1, byte :: rest, p =>
    if p.state = .failure then p
    else if p.state = .upgraded then { p with unparsed := p.unparsed ++ byte :: rest }
    else if p.state = .body then
      let n := p.dataAvailable (byte :: rest).length
      doParse fuel ((byte :: rest).drop n) (p.bodyBlock ((byte :: rest).take n))
    else if p.inBody then doParse fuel rest (p.chunkByte cfg byte)
    else doParse fuel rest (p.headByte cfg byte)

/-- `_onData`. -/
def onData (p : Parser) (buffer : List ℕ) : Parser := p.doParse cfg buffer.length buffer

/-- `readUnparsedData`, after an upgrade. -/
def readUnparsedData (p : Parser) : Option (List ℕ) :=
  if p.unparsed = [] then none else some p.unparsed

end Parser

/-- A parser on its socket, with the bytes that came after an upgrade.  `detachIncoming` hands the
subscription on, and the parser does not see these. -/
structure Connection where
  parser : Parser := {}
  detached : List ℕ := []

/-- `_onData`, and the listener of a detached socket after an upgrade. -/
def Connection.onData (cfg : Config) (c : Connection) (buffer : List ℕ) : Connection :=
  if c.parser.state = .upgraded then { c with detached := c.detached ++ buffer }
  else { c with parser := c.parser.onData cfg buffer }

end Http
