import Mathlib.Data.Int.Notation
import Mathlib.Data.List.Basic

/-!
# HTTP headers

The headers of a message that is received, as `_HttpParser` adds to them.  Texts are lists of
character codes, and `_headers` is an association list.  Host and port, which the parser does not
read back, are left out.
-/

namespace DartSdk.Io

/-- A string made of character codes. -/
abbrev Text := List UInt8

def text (s : String) : Text := s.toList.map fun c => .ofNat c.toNat

inductive ParseError
  | httpException (message : String)
  | formatException
  deriving DecidableEq

inductive HttpVersion
  | undetermined
  | http10
  | http11
  deriving DecidableEq

structure HttpHeaders where
  protocolVersion : HttpVersion
  headers : List (Text × List Text)
  contentLength : ℤ
  persistentConnection : Bool
  chunkedTransferEncoding : Bool
  deriving DecidableEq

namespace HttpHeaders

section

variable (parseInt : Text → Option ℤ) (h : HttpHeaders) (name : Text) (value : Text)

/-- The constructor.  It copies the map of the initial headers, but not the lists in it. -/
def new (version : HttpVersion) (initialHeaders : Option HttpHeaders := none) : HttpHeaders where
  protocolVersion := version
  headers := initialHeaders.elim [] headers
  contentLength := initialHeaders.elim (-1) contentLength
  persistentConnection := initialHeaders.elim true persistentConnection && version ≠ .http10
  chunkedTransferEncoding := initialHeaders.elim false chunkedTransferEncoding && version ≠ .http10

def values : List Text :=
  (h.headers.lookup name).getD []

def removeAll : HttpHeaders :=
  { h with headers := h.headers.filter fun p => p.1 ≠ name }

/-- `_headers[name] = values` -/
def put (values : List Text) : HttpHeaders :=
  { h with headers := (h.removeAll name).headers ++ [(name, values)] }

def addValue (name value : Text) : HttpHeaders :=
  h.put name (h.values name ++ [value])

def set (name value : Text) : HttpHeaders := h.put name [value]

/-- `remove` of the value `chunked` of the header `transfer-encoding`. -/
def removeChunked : HttpHeaders :=
  let values := (h.values (text "transfer-encoding")).erase (text "chunked")
  let h := if values = [] then h.removeAll (text "transfer-encoding")
    else h.put (text "transfer-encoding") values
  { h with chunkedTransferEncoding := false }

/-- `chunkedTransferEncoding = true` for a version other than 1.0.  It clears the content length; the
setter of the content length calls back for version 1.1, and by then there is nothing left to do but
to set the flag. -/
def setChunked : HttpHeaders :=
  if h.chunkedTransferEncoding then h
  else
    let h := if (h.values (text "transfer-encoding")).getLast? = some (text "chunked") then h
      else h.addValue (text "transfer-encoding") (text "chunked")
    let h := if h.contentLength = -1 then h
      else { h with contentLength := -1 }.removeAll (text "content-length")
    { h with chunkedTransferEncoding := true }

/-- The setter `contentLength`. -/
def setContentLength (contentLength : ℤ) : Except ParseError HttpHeaders :=
  if h.protocolVersion = .http10 ∧ h.persistentConnection ∧ contentLength = -1 then
    .error (.httpException ("Trying to clear ContentLength on HTTP 1.0 headers with " ++
      "'Connection: Keep-Alive' set"))
  else if h.contentLength = contentLength then .ok h
  else if 0 ≤ contentLength then
    let h := { h with contentLength := contentLength }
    let h := if h.chunkedTransferEncoding then h.removeChunked else h
    .ok (h.set (text "content-length") (text (toString contentLength)))
  else
    let h := { h with contentLength := contentLength }.removeAll (text "content-length")
    .ok (if h.protocolVersion = .http11 then h.setChunked else h)

/-- `_addContentLength`; `parseInt` is `int.parse`. -/
def addContentLength : Except ParseError HttpHeaders :=
  match parseInt value with
  | none => .error .formatException
  | some contentLength => h.setContentLength contentLength

def addTransferEncoding : Except ParseError HttpHeaders :=
  if value = text "chunked" then
    if h.protocolVersion = .http10 then
      .error (.httpException "Trying to set 'Transfer-Encoding: Chunked' on HTTP 1.0 headers")
    else .ok h.setChunked
  else .ok (h.addValue (text "transfer-encoding") value)

/-- `toLowerCase`, on ASCII letters. -/
def toLowerCase : Text :=
  value.map fun c => if 0x41 ≤ c.toNat ∧ c.toNat ≤ 0x5A then c + 0x20 else c

def addConnection : HttpHeaders :=
  let h :=
    if toLowerCase value = text "close" then { h with persistentConnection := false }
    else if toLowerCase value = text "keep-alive" then { h with persistentConnection := true }
    else h
  h.addValue (text "connection") value

def add (name value : Text) : Except ParseError HttpHeaders :=
  if name = text "date" ∨ name = text "host" ∨ name = text "expires" ∨ name = text "content-type" ∨
      name = text "if-modified-since" then .ok (h.set name value)
  else if name = text "connection" then .ok (h.addConnection value)
  else if name = text "content-length" then h.addContentLength parseInt value
  else if name = text "transfer-encoding" then h.addTransferEncoding value
  else .ok (h.addValue name value)

end

end HttpHeaders

end DartSdk.Io
