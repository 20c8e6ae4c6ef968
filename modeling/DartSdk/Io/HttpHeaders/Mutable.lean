import DartSdk.Io.HttpParser
import DartSdk.Lib.Throwing

/-!
# HTTP headers that are written

The operations of `_HttpHeaders` that a program calls on the headers of a message it is going to
send.  An operation that throws keeps what it has done before.  The headers are mutable all the time.

The setters of `contentLength` and `chunkedTransferEncoding` call each other; their first argument
bounds the depth of these calls.
-/

namespace DartSdk.Io.HttpHeaders

inductive Thrown
  | httpException (message : String)
  /-- A `FormatException` of `_validateField`. -/
  | invalidField (field : List UInt16)
  /-- A `FormatException` of `_validateValue`. -/
  | invalidValue (value : List UInt16)
  /-- A `FormatException` of `int.parse`. -/
  | invalidInt (value : Text)
  /-- `values.last` of a list without elements. -/
  | stateError
  /-- `_set` or `toLowerCase` of something that is not a string. -/
  | typeError
  | stackOverflow
  deriving DecidableEq

/-- A string all of whose code units are ASCII characters. -/
def narrow (s : List UInt16) : Text := s.map UInt16.toUInt8

def widen (s : Text) : List UInt16 := s.map UInt8.toUInt16

/-- What a header can be given.  An object that is not a string, an integer or a date is not equal to
any string, and it counts only by the text of its `toString`; a date by the text of `HttpDate.format`. -/
inductive Value
  | string (value : List UInt16)
  | int (value : ℤ)
  | dateTime (formatted : Text)
  | other (printed : List UInt16)
  deriving DecidableEq

/-- The value is removed from the list, once, if it is there. -/
def Value.eraseFrom : Value → List Text → List Text
  | .string value, values => values.erase (narrow value)
  | _, values => values

/-- The argument of `add` and `set`: an `Iterable` or a single value. -/
inductive Argument
  | iterable (values : List Value)
  | single (value : Value)
  deriving DecidableEq

def Argument.toList : Argument → List Value
  | .iterable values => values
  | .single value => [value]

def isTokenChar (unit : UInt16) : Bool := unit < 128 ∧ HttpParser.isTokenChar unit.toUInt8

def isValueChar (unit : UInt16) : Bool := 31 < unit ∧ unit < 128 ∨ unit = 32 ∨ unit = 9

abbrev Operation := EStateM Thrown HttpHeaders

/-- `_headers[name]`, or `null`. -/
def lookup (h : HttpHeaders) (name : Text) : Option (List Text) := h.headers.lookup name

namespace Operation

def validateField (field : List UInt16) : Operation Text :=
  if field.all isTokenChar then pure (toLowerCase (narrow field)) else throw (.invalidField field)

def validateValue : Value → Operation Value
  | .string value => if value.all isValueChar then pure (.string value) else throw (.invalidValue value)
  | value => pure value

/-- `_validateValue(value.toString())`, for an object that is not a string. -/
def validatePrinted (printed : List UInt16) : Operation Text :=
  if printed.all isValueChar then pure (narrow printed) else throw (.invalidValue printed)

/-- The first part of `_addValue`: there is a list for the name. -/
def makeList (name : Text) : Operation Unit := do
  let h ← get
  if h.lookup name = none then modify (·.put name []) else pure ()

/-- `_addValue`; the list is there before the value is checked. -/
def addValue (name : Text) (value : Value) : Operation Unit := do
  makeList name
  match value with
  | .dateTime formatted => modify (HttpHeaders.addValue · name formatted)
  | .string value => modify (HttpHeaders.addValue · name (narrow value))
  | .int value => do
    let value ← validatePrinted (widen (text (toString value)))
    modify (HttpHeaders.addValue · name value)
  | .other printed => do
    let value ← validatePrinted printed
    modify (HttpHeaders.addValue · name value)

/-- `_set` -/
def setValue (name value : Text) : Operation Unit := modify (HttpHeaders.set · name value)

/-- The part of `remove` about the list of the name. -/
def removeFrom (name : Text) (value : Value) : Operation Unit := do
  let h ← get
  match h.lookup name with
  | none => pure ()
  | some values =>
    if value.eraseFrom values = [] then modify (HttpHeaders.removeAll · name)
    else modify (·.put name (value.eraseFrom values))

/-- The part of `remove` after the checks. -/
def removeValue (name : Text) (value : Value) : Operation Unit := do
  removeFrom name value
  if name = text "transfer-encoding" ∧ value = .string (widen (text "chunked")) then
    modify fun h => { h with chunkedTransferEncoding := false }
  else pure ()

def remove (name : List UInt16) (value : Value) : Operation Unit := do
  let name ← validateField name
  let value ← validateValue value
  removeValue name value

def removeAll (name : List UInt16) : Operation Unit := do
  let name ← validateField name
  modify (HttpHeaders.removeAll · name)

/-- The part of the setter `chunkedTransferEncoding` about the list of the header. -/
def appendChunked : Operation Unit := do
  let h ← get
  match h.lookup (text "transfer-encoding") with
  | none => addValue (text "transfer-encoding") (.string (widen (text "chunked")))
  | some values =>
    match values.getLast? with
    | none => throw .stateError
    | some last =>
      if last ≠ text "chunked" then
        addValue (text "transfer-encoding") (.string (widen (text "chunked")))
      else pure ()

mutual

/-- The setter `contentLength`. -/
def setContentLength : ℕ → ℤ → Operation Unit
  | 0, _ => throw .stackOverflow
  | depth + 1, contentLength => do
    let h ← get
    if h.protocolVersion = .http10 ∧ h.persistentConnection ∧ contentLength = -1 then
      throw (.httpException ("Trying to clear ContentLength on HTTP 1.0 headers with " ++
        "'Connection: Keep-Alive' set"))
    else if h.contentLength = contentLength then pure ()
    else do
      modify fun h => { h with contentLength := contentLength }
      if 0 ≤ contentLength then do
        (if h.chunkedTransferEncoding then setChunkedTransferEncoding depth false else pure ())
        setValue (text "content-length") (text (toString contentLength))
      else do
        removeAll (widen (text "content-length"))
        if h.protocolVersion = .http11 then setChunkedTransferEncoding depth true else pure ()

/-- The setter `chunkedTransferEncoding`. -/
def setChunkedTransferEncoding : ℕ → Bool → Operation Unit
  | 0, _ => throw .stackOverflow
  | depth + 1, chunkedTransferEncoding => do
    let h ← get
    if chunkedTransferEncoding ∧ h.protocolVersion = .http10 then
      throw (.httpException "Trying to set 'Transfer-Encoding: Chunked' on HTTP 1.0 headers")
    else if chunkedTransferEncoding = h.chunkedTransferEncoding then pure ()
    else do
      (if chunkedTransferEncoding then do
        appendChunked
        setContentLength depth (-1)
      else remove (widen (text "transfer-encoding")) (.string (widen (text "chunked"))))
      modify fun h => { h with chunkedTransferEncoding := chunkedTransferEncoding }

end

/-- Deep enough for every call of a setter. -/
def setterDepth : ℕ := 5

def unexpectedType {α : Type} (name : String) : Operation α :=
  throw (.httpException ("Unexpected type for header named " ++ name))

variable (parseInt : Text → Option ℤ)

/-- `_addContentLength`; `parseInt` is `int.parse`. -/
def addContentLength : Value → Operation Unit
  | .int value => setContentLength setterDepth value
  | .string value =>
    match parseInt (narrow value) with
    | some contentLength => setContentLength setterDepth contentLength
    | none => throw (.invalidInt (narrow value))
  | _ => unexpectedType "content-length"

def addTransferEncoding (value : Value) : Operation Unit :=
  if value = .string (widen (text "chunked")) then setChunkedTransferEncoding setterDepth true
  else addValue (text "transfer-encoding") value

/-- `_addDate`, `_addExpires` and `_addIfModifiedSince` -/
def addDate (name : String) : Value → Operation Unit
  | .dateTime formatted => setValue (text name) formatted
  | .string value => setValue (text name) (narrow value)
  | _ => unexpectedType name

/-- `_addHost`, without `_host` and `_port` -/
def addHost : Value → Operation Unit
  | .string value => setValue (text "host") (narrow value)
  | _ => unexpectedType "host"

def addConnection : Value → Operation Unit
  | .string value => modify (HttpHeaders.addConnection · (narrow value))
  | _ => throw .typeError

def addContentType : Value → Operation Unit
  | .string value => setValue (text "content-type") (narrow value)
  | _ => throw .typeError

/-- `_add` -/
def addOne (name : Text) (value : Value) : Operation Unit :=
  if name = text "date" then addDate "date" value
  else if name = text "host" then addHost value
  else if name = text "expires" then addDate "expires" value
  else if name = text "connection" then addConnection value
  else if name = text "content-type" then addContentType value
  else if name = text "content-length" then addContentLength parseInt value
  else if name = text "transfer-encoding" then addTransferEncoding value
  else if name = text "if-modified-since" then addDate "if-modified-since" value
  else addValue name value

def addAll (name : Text) (argument : Argument) : Operation Unit :=
  forM argument.toList fun value => do
    let value ← validateValue value
    addOne parseInt name value

def add (name : List UInt16) (argument : Argument) : Operation Unit := do
  let name ← validateField name
  addAll parseInt name argument

def set (name : List UInt16) (argument : Argument) : Operation Unit := do
  let name ← validateField name
  modify (HttpHeaders.removeAll · name)
  (if name = text "transfer-encoding" then modify fun h => { h with chunkedTransferEncoding := false }
  else pure ())
  addAll parseInt name argument

/-- The setter `persistentConnection`. -/
def setPersistentConnection (persistentConnection : Bool) :
    Operation Unit := do
  let h ← get
  if persistentConnection = h.persistentConnection then pure ()
  else do
    (if persistentConnection then
      if h.protocolVersion = .http11 then
        remove (widen (text "connection")) (.string (widen (text "close")))
      else if h.contentLength = -1 then
        throw (.httpException ("Trying to set 'Connection: Keep-Alive' on HTTP 1.0 headers with " ++
          "no ContentLength"))
      else add parseInt (widen (text "connection")) (.single (.string (widen (text "keep-alive"))))
    else
      if h.protocolVersion = .http11 then
        add parseInt (widen (text "connection")) (.single (.string (widen (text "close"))))
      else remove (widen (text "connection")) (.string (widen (text "keep-alive"))))
    modify fun h => { h with persistentConnection := persistentConnection }

def clear : Operation Unit :=
  modify fun h =>
    { h with
      headers := []
      contentLength := -1
      persistentConnection := true
      chunkedTransferEncoding := false }

end Operation

/-- The public operations on mutable headers. -/
inductive Call
  | add (name : List UInt16) (argument : Argument)
  | set (name : List UInt16) (argument : Argument)
  | remove (name : List UInt16) (value : Value)
  | removeAll (name : List UInt16)
  | contentLength (contentLength : ℤ)
  | chunkedTransferEncoding (chunkedTransferEncoding : Bool)
  | persistentConnection (persistentConnection : Bool)
  | clear
  deriving DecidableEq

def Call.operation (parseInt : Text → Option ℤ) : Call → Operation Unit
  | .add name argument => Operation.add parseInt name argument
  | .set name argument => Operation.set parseInt name argument
  | .remove name value => Operation.remove name value
  | .removeAll name => Operation.removeAll name
  | .contentLength n => Operation.setContentLength Operation.setterDepth n
  | .chunkedTransferEncoding b => Operation.setChunkedTransferEncoding Operation.setterDepth b
  | .persistentConnection b => Operation.setPersistentConnection parseInt b
  | .clear => Operation.clear

/-- The headers after a call; the caller catches what it throws. -/
def call (parseInt : Text → Option ℤ) (h : HttpHeaders) (c : Call) : HttpHeaders :=
  Throwing.final (c.operation parseInt) h

end DartSdk.Io.HttpHeaders
