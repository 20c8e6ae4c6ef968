import DartSdk.Io.HttpHeaders

/-!
# The HTTP parser

`_HttpParser` goes through the data of a connection byte by byte; bodies are taken in blocks.  Here is
one round of the loop of `_doParse`, what the end of the connection does, and the results that are
reported to those who listen.

`int.parse` and `Uri.parse` are parameters.  `_persistentConnection` of the parser, which nothing here
reads, is left out; so are `_parserCalled` and the stream controllers, which only say when the loop may
go on.
-/

namespace DartSdk.Io

namespace HttpParser

section Types

/-- The states of the parser, in the order of their codes. -/
inductive State
  | start
  | methodOrResponseHttpVersion
  | responseHttpVersion
  | requestLineMethod
  | requestLineUri
  | requestLineHttpVersion
  | requestLineEnding
  | responseLineStatusCode
  | responseLineReasonPhrase
  | responseLineEnding
  | headerStart
  | headerField
  | headerValueStart
  | headerValue
  | headerValueFoldingOrEnding
  | headerValueFoldOrEnd
  | headerEnding
  | chunkSizeStartingCr
  | chunkSizeStartingLf
  | chunkSize
  | chunkSizeExtension
  | chunkSizeEnding
  | chunkedBodyDoneCr
  | chunkedBodyDoneLf
  | body
  | closed
  | upgraded
  | failure
  deriving DecidableEq

/-- `_state < _State.FIRST_BODY_STATE` -/
def State.beforeBody (state : State) : Bool := state.ctorIdx < State.chunkSizeStartingCr.ctorIdx

/-- The message types.  Undetermined messages are responses. -/
inductive MessageType
  | request
  | response
  deriving DecidableEq

/-- `_HttpIncoming`, a message without its body. -/
structure Incoming (Uri : Type) where
  headers : HttpHeaders
  transferLength : ℤ
  method : Text
  uri : Option Uri
  statusCode : ℤ
  reasonPhrase : Text
  isUpgraded : Bool

/-- What those who listen are told: a message, data of its body, an error or the end of a body, an
error or the end of the stream of messages. -/
inductive Event (Uri : Type)
  | incoming (message : Incoming Uri)
  | data (bytes : List UInt8)
  | bodyError (error : ParseError)
  | bodyDone
  | error (error : ParseError)
  | done

/-- The functions of the core library. -/
structure Core (Uri : Type) where
  parseInt : Text → Option ℤ
  parseUri : Text → Option Uri

structure Parser where
  requestParser : Bool
  state : State
  httpVersionIndex : ℕ
  messageType : MessageType
  statusCode : ℤ
  statusCodeLength : ℕ
  method : Text
  uriOrReasonPhrase : Text
  headerField : Text
  headerValue : Text
  httpVersion : HttpVersion
  transferLength : ℤ
  connectionUpgrade : Bool
  chunked : Bool
  noMessageBody : Bool
  remainingContent : ℤ
  headers : HttpHeaders
  /-- `_incoming != null` -/
  incoming : Bool

end Types

section Model

def http : Text := text "HTTP"
def http1dot : Text := text "HTTP/1."
def http11 : Text := text "HTTP/1.1"

def HT : UInt8 := 9
def LF : UInt8 := 10
def CR : UInt8 := 13
def SP : UInt8 := 32
def COMMA : UInt8 := 44
def SLASH : UInt8 := 47
def ZERO : UInt8 := 48
def ONE : UInt8 := 49
def COLON : UInt8 := 58
def SEMI_COLON : UInt8 := 59

/-- `SEPARATOR_MAP` -/
def isSeparator (byte : UInt8) : Bool :=
  byte ∈ ([9, 32, 34, 40, 41, 44, 47, 58, 59, 60, 61, 62, 63, 64, 91, 92, 93, 123, 125] : List UInt8)

def isTokenChar (byte : UInt8) : Bool := 31 < byte ∧ byte < 128 ∧ !isSeparator byte

/-- `((x - 0x41) & 0x7f) < 26 ? x | 0x20 : x` -/
def toLowerCaseByte (x : UInt8) : UInt8 := if (x - 0x41) &&& 0x7F < 26 then x ||| 0x20 else x

/-- The expected text is in lower case. -/
def caseInsensitiveCompare (expected value : Text) : Bool := expected = value.map toLowerCaseByte

/-- The loop of `_tokenizeFieldValue`, from `index` on. -/
def tokenizeFrom (value : Text) (start index : ℕ) : Text → List Text
  | [] => [(value.drop start).take (index - start)]
  | c :: rest =>
    if c = COMMA then
      (value.drop start).take (index - start) :: tokenizeFrom value (index + 1) (index + 1) rest
    else if c = SP ∨ c = HT then tokenizeFrom value (start + 1) (index + 1) rest
    else tokenizeFrom value start (index + 1) rest

def tokenizeFieldValue (headerValue : Text) : List Text := tokenizeFrom headerValue 0 0 headerValue

def fail {α : Type} (message : String) : Except ParseError α := .error (.httpException message)

/-- `_expect`, with what comes after it. -/
def expect {α : Type} (val1 val2 : UInt8) (next : Except ParseError α) : Except ParseError α :=
  if val1 ≠ val2 then fail "Failed to parse HTTP" else next

def expectHexDigit (byte : UInt8) : Except ParseError ℕ :=
  if 0x30 ≤ byte ∧ byte ≤ 0x39 then .ok (byte.toNat - 0x30)
  else if 0x41 ≤ byte ∧ byte ≤ 0x46 then .ok (byte.toNat - 0x41 + 10)
  else if 0x61 ≤ byte ∧ byte ≤ 0x66 then .ok (byte.toNat - 0x61 + 10)
  else fail "Failed to parse HTTP"

def reset (p : Parser) : Parser :=
  if p.state = .upgraded then p
  else
    { p with
      state := .start
      messageType := .response
      headerField := []
      headerValue := []
      method := []
      uriOrReasonPhrase := []
      statusCode := 0
      statusCodeLength := 0
      httpVersion := .undetermined
      transferLength := -1
      connectionUpgrade := false
      chunked := false
      noMessageBody := false
      remainingContent := -1
      headers := .new .undetermined }

/-- The end of a message: `_reset` and `_closeIncoming`. -/
def endMessage (p : Parser) : Parser := { reset p with incoming := false }

/-- A new parser; the request that the first response is for may be a `HEAD` request. -/
def new (requestParser isHead : Bool) : Parser where
  requestParser := requestParser
  state := .start
  httpVersionIndex := 0
  messageType := .response
  statusCode := 0
  statusCodeLength := 0
  method := []
  uriOrReasonPhrase := []
  headerField := []
  headerValue := []
  httpVersion := .undetermined
  transferLength := -1
  connectionUpgrade := false
  chunked := false
  noMessageBody := isHead
  remainingContent := -1
  headers := .new .undetermined
  incoming := false

variable {Uri : Type} (core : Core Uri) (p : Parser)

section

variable (byte : UInt8)

/-- `_transferLength` at the end of the headers. -/
def transferLengthOf : ℤ :=
  if p.connectionUpgrade then 0
  else if p.chunked then -1
  else if p.messageType = .request ∧ p.headers.contentLength < 0 then 0
  else p.headers.contentLength

def createIncoming (uri : Option Uri) : Incoming Uri where
  headers := p.headers
  transferLength := transferLengthOf p
  method := if p.requestParser then p.method else []
  uri := uri
  statusCode := if p.requestParser then 0 else p.statusCode
  reasonPhrase := if p.requestParser then [] else p.uriOrReasonPhrase
  isUpgraded := p.connectionUpgrade

def startBody (message : Incoming Uri) : Parser × List (Event Uri) :=
  let p := { p with transferLength := transferLengthOf p, method := [], uriOrReasonPhrase := [] }
  if p.connectionUpgrade then
    ({ p with state := .upgraded, incoming := false }, [.bodyDone, .incoming message])
  else if p.transferLength = 0 ∨ p.messageType = .response ∧ p.noMessageBody then
    (endMessage p, [.bodyDone, .incoming message])
  else if p.chunked then
    ({ p with state := .chunkSize, remainingContent := 0, incoming := true }, [.incoming message])
  else if 0 < p.transferLength then
    ({ p with state := .body, remainingContent := p.transferLength, incoming := true },
      [.incoming message])
  else ({ p with state := .body, incoming := true }, [.incoming message])

def headersEnd : Except ParseError (Parser × List (Event Uri)) :=
  if p.requestParser then
    match core.parseUri p.uriOrReasonPhrase with
    | none => .error .formatException
    | some uri => .ok (startBody p (createIncoming p (some uri)))
  else .ok (startBody p (createIncoming p none))

def addTokens (p : Parser) (headerField : Text) : List Text → Except ParseError Parser
  | [] => .ok p
  | token :: tokens =>
    match p.headers.add core.parseInt headerField token with
    | .error e => .error e
    | .ok headers =>
      let upgrade := caseInsensitiveCompare (text "upgrade") token
      addTokens { p with headers := headers, connectionUpgrade := p.connectionUpgrade || upgrade }
        headerField tokens

def addHeader : Except ParseError Parser :=
  let p :=
    if p.headerField = text "transfer-encoding" ∧
        caseInsensitiveCompare (text "chunked") p.headerValue then { p with chunked := true }
    else p
  let added :=
    if p.headerField = text "connection" then
      addTokens core p p.headerField (tokenizeFieldValue p.headerValue)
    else
      (p.headers.add core.parseInt p.headerField p.headerValue).map fun headers =>
        { p with headers := headers }
  added.map fun p => { p with headerField := [], headerValue := [] }

/-- The byte after a header, or the first one of the headers: whether it is to be read again, too. -/
def afterHeader : Parser × Bool :=
  if byte = CR then ({ p with state := .headerEnding }, false)
  else if byte = LF then ({ p with state := .headerEnding }, true)
  else
    ({ p with headerField := p.headerField ++ [toLowerCaseByte byte], state := .headerField }, false)

def parseStart : Except ParseError Parser :=
  if byte = http.getD 0 0 then
    .ok { p with httpVersionIndex := 1, state := .methodOrResponseHttpVersion }
  else if !isTokenChar byte then fail "Invalid request method"
  else if !p.requestParser then fail "Invalid response line"
  else .ok { p with method := p.method ++ [byte], state := .requestLineMethod }

def parseMethodOrResponseHttpVersion : Except ParseError Parser :=
  if p.httpVersionIndex < http.length ∧ byte = http.getD p.httpVersionIndex 0 then
    .ok { p with httpVersionIndex := p.httpVersionIndex + 1 }
  else if p.httpVersionIndex = http.length ∧ byte = SLASH then
    if p.requestParser then fail "Invalid request line"
    else .ok { p with httpVersionIndex := p.httpVersionIndex + 1, state := .responseHttpVersion }
  else
    -- Did not parse HTTP version.  Expect method instead.
    let p := { p with method := p.method ++ http.take p.httpVersionIndex }
    if byte = SP then .ok { p with state := .requestLineUri }
    else if !p.requestParser then fail "Invalid response line"
    else
      .ok { p with
        method := p.method ++ [byte]
        httpVersion := .undetermined
        state := .requestLineMethod }

def parseResponseHttpVersion : Except ParseError Parser :=
  if p.httpVersionIndex < http1dot.length then
    expect byte (http1dot.getD p.httpVersionIndex 0)
      (.ok { p with httpVersionIndex := p.httpVersionIndex + 1 })
  else if p.httpVersionIndex = http1dot.length ∧ byte = ONE then
    .ok { p with httpVersion := .http11, httpVersionIndex := p.httpVersionIndex + 1 }
  else if p.httpVersionIndex = http1dot.length ∧ byte = ZERO then
    .ok { p with httpVersion := .http10, httpVersionIndex := p.httpVersionIndex + 1 }
  else if p.httpVersionIndex = http1dot.length + 1 then
    expect byte SP (.ok { p with state := .responseLineStatusCode })
  else fail "Invalid response line"

def parseRequestLineMethod : Except ParseError Parser :=
  if byte = SP then .ok { p with state := .requestLineUri }
  else if isSeparator byte ∨ byte = CR ∨ byte = LF then fail "Invalid request method"
  else .ok { p with method := p.method ++ [byte] }

def parseRequestLineUri : Except ParseError Parser :=
  if byte = SP then
    if p.uriOrReasonPhrase.length = 0 then fail "Invalid request URI"
    else .ok { p with state := .requestLineHttpVersion, httpVersionIndex := 0 }
  else if byte = CR ∨ byte = LF then fail "Invalid request URI"
  else .ok { p with uriOrReasonPhrase := p.uriOrReasonPhrase ++ [byte] }

def parseRequestLineHttpVersion : Except ParseError Parser :=
  if p.httpVersionIndex < http1dot.length then
    expect byte (http11.getD p.httpVersionIndex 0)
      (.ok { p with httpVersionIndex := p.httpVersionIndex + 1 })
  else if p.httpVersionIndex = http1dot.length then
    if byte = ONE then
      .ok { p with httpVersion := .http11, httpVersionIndex := p.httpVersionIndex + 1 }
    else if byte = ZERO then
      .ok { p with httpVersion := .http10, httpVersionIndex := p.httpVersionIndex + 1 }
    else fail "Invalid response line"
  else if byte = CR then .ok { p with state := .requestLineEnding }
  else expect byte LF (.ok { p with messageType := .request, state := .headerStart })

def parseResponseLineStatusCode : Except ParseError Parser :=
  if byte = SP then .ok { p with state := .responseLineReasonPhrase }
  else if byte = CR then .ok { p with state := .responseLineEnding }
  else if (byte < 0x30 ∧ 0x39 < byte) ∨ 3 < p.statusCodeLength + 1 then
    fail "Invalid response status code"
  else
    .ok { p with
      statusCodeLength := p.statusCodeLength + 1
      statusCode := p.statusCode * 10 + byte.toNat - 0x30 }

def parseResponseLineReasonPhrase : Except ParseError Parser :=
  if byte = CR then .ok { p with state := .responseLineEnding }
  else if byte = CR ∨ byte = LF then fail "Invalid response reason phrase"
  else .ok { p with uriOrReasonPhrase := p.uriOrReasonPhrase ++ [byte] }

/-- The source compares the message type here and does not set it; it is that of a response by
default. -/
def parseResponseLineEnding : Except ParseError Parser :=
  expect byte LF <|
    if p.statusCode < 100 ∨ 599 < p.statusCode then fail "Invalid response status code"
    else if p.statusCode ≤ 199 ∨ p.statusCode = 204 ∨ p.statusCode = 304 then
      .ok { p with noMessageBody := true, state := .headerStart }
    else .ok { p with state := .headerStart }

def parseHeaderField : Except ParseError Parser :=
  if byte = COLON then .ok { p with state := .headerValueStart }
  else if !isTokenChar byte then fail "Invalid header field name"
  else .ok { p with headerField := p.headerField ++ [toLowerCaseByte byte] }

def parseHeaderValueStart : Parser :=
  if byte = CR then { p with state := .headerValueFoldingOrEnding }
  else if byte = LF then { p with state := .headerValueFoldOrEnd }
  else if byte ≠ SP ∧ byte ≠ HT then
    { p with headerValue := p.headerValue ++ [byte], state := .headerValue }
  else p

def parseHeaderValue : Parser :=
  if byte = CR then { p with state := .headerValueFoldingOrEnding }
  else if byte = LF then { p with state := .headerValueFoldOrEnd }
  else { p with headerValue := p.headerValue ++ [byte] }

def parseChunkSize : Except ParseError Parser :=
  if byte = CR then .ok { p with state := .chunkSizeEnding }
  else if byte = SEMI_COLON then .ok { p with state := .chunkSizeExtension }
  else (expectHexDigit byte).map fun value =>
    { p with remainingContent := p.remainingContent * 16 + value }

def parseChunkSizeEnding : Except ParseError Parser :=
  expect byte LF <|
    .ok { p with state := if 0 < p.remainingContent then .body else .chunkedBodyDoneCr }

/-- Nothing is reported, and the byte is taken. -/
def next (result : Except ParseError Parser) :
    Except ParseError (Parser × Bool × List (Event Uri)) :=
  result.map fun p => (p, false, [])

/-- A round of the loop that takes one byte, with the events and whether the byte is to be read
again. -/
def parseByte : Except ParseError (Parser × Bool × List (Event Uri)) :=
  match p.state with
  | .start => next (parseStart p byte)
  | .methodOrResponseHttpVersion => next (parseMethodOrResponseHttpVersion p byte)
  | .responseHttpVersion => next (parseResponseHttpVersion p byte)
  | .requestLineMethod => next (parseRequestLineMethod p byte)
  | .requestLineUri => next (parseRequestLineUri p byte)
  | .requestLineHttpVersion => next (parseRequestLineHttpVersion p byte)
  | .requestLineEnding =>
    next (expect byte LF (.ok { p with messageType := .request, state := .headerStart }))
  | .responseLineStatusCode => next (parseResponseLineStatusCode p byte)
  | .responseLineReasonPhrase => next (parseResponseLineReasonPhrase p byte)
  | .responseLineEnding => next (parseResponseLineEnding p byte)
  | .headerStart =>
    let after := afterHeader { p with headers := .new p.httpVersion } byte
    .ok (after.1, after.2, [])
  | .headerField => next (parseHeaderField p byte)
  | .headerValueStart => .ok (parseHeaderValueStart p byte, false, [])
  | .headerValue => .ok (parseHeaderValue p byte, false, [])
  | .headerValueFoldingOrEnding => next (expect byte LF (.ok { p with state := .headerValueFoldOrEnd }))
  | .headerValueFoldOrEnd =>
    if byte = SP ∨ byte = HT then .ok ({ p with state := .headerValueStart }, false, [])
    else (addHeader core p).map fun p =>
      let after := afterHeader p byte
      (after.1, after.2, [])
  | .headerEnding =>
    expect byte LF ((headersEnd core p).map fun result => (result.1, false, result.2))
  | .chunkSizeStartingCr => next (expect byte CR (.ok { p with state := .chunkSizeStartingLf }))
  | .chunkSizeStartingLf => next (expect byte LF (.ok { p with state := .chunkSize }))
  | .chunkSize => next (parseChunkSize p byte)
  | .chunkSizeExtension =>
    .ok (if byte = CR then { p with state := .chunkSizeEnding } else p, false, [])
  | .chunkSizeEnding => next (parseChunkSizeEnding p byte)
  | .chunkedBodyDoneCr => next (expect byte CR (.ok { p with state := .chunkedBodyDoneLf }))
  | .chunkedBodyDoneLf => expect byte LF (.ok (endMessage p, false, [.bodyDone]))
  | .body | .closed | .upgraded | .failure => .ok (p, false, [])

end

/-- The bytes of the body that a round takes. -/
def dataAvailable (length : ℕ) : ℕ :=
  if 0 ≤ p.remainingContent ∧ p.remainingContent < length then p.remainingContent.toNat else length

/-- `_remainingContent -= data.length`, unless it is not known. -/
def takeData (length : ℕ) : Parser :=
  { p with
    remainingContent :=
      if p.remainingContent ≠ -1 then p.remainingContent - length else p.remainingContent }

def endData : Parser × List (Event Uri) :=
  if p.remainingContent = 0 then
    if p.chunked then ({ p with state := .chunkSizeStartingCr }, []) else (endMessage p, [.bodyDone])
  else (p, [])

/-- A round of the loop in state `BODY`. -/
def parseBody (block : List UInt8) : Parser × ℕ × List (Event Uri) :=
  let data := block.take (dataAvailable p block.length)
  let after : Parser × List (Event Uri) := endData (takeData p data.length)
  (after.1, data.length, .data data :: after.2)

/-- The parser after a byte, the number of bytes taken and the events.  An exception ends the
parsing. -/
def afterByte :
    Except ParseError (Parser × Bool × List (Event Uri)) → Parser × ℕ × List (Event Uri)
  | .error e => ({ p with state := .failure }, 1, [.error e, .done])
  | .ok (p, again, events) => (p, if again then 0 else 1, events)

/-- A round of the loop on what is left of the buffer. -/
def round (block : List UInt8) : Parser × ℕ × List (Event Uri) :=
  if p.state = .body then parseBody p block
  else
    match block with
    | [] => (p, 0, [])
    | byte :: _ => afterByte p (parseByte core p byte)

def onDone : List (Event Uri) :=
  if p.state = .closed ∨ p.state = .failure then []
  else if p.incoming then
    if p.state ≠ .upgraded ∧ ¬(p.state = .start ∧ !p.requestParser) ∧
        ¬(p.state = .body ∧ !p.chunked ∧ p.transferLength = -1) then
      [.bodyError (.httpException "Connection closed while receiving data"), .bodyDone, .done]
    else [.bodyDone, .done]
  else if p.state = .start then
    if !p.requestParser then
      [.error (.httpException "Connection closed before full header was received"), .done]
    else [.done]
  else if p.state = .upgraded then [.done]
  else if p.state.beforeBody then
    [.error (.httpException "Connection closed before full header was received"), .done]
  else if !p.chunked ∧ p.transferLength = -1 then [.done]
  else [.error (.httpException "Connection closed before full body was received"), .done]

end Model

end HttpParser

end DartSdk.Io
