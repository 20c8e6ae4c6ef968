import DartSdk.Convert.JsonParser
import Mathlib.Data.Nat.Digits.Defs

/-!
# The JSON stringifier

`_JsonStringifier` with `_JsonStringStringifier` and `_JsonPrettyPrintMixin`.  Lists and maps have an
identity, so they are objects in a heap and may contain themselves; `writeObject` has a fuel that it
loses with every object.  A double is given by what its `toString` returns.
-/

namespace DartSdk.Convert

open ChunkedJsonParser

/-- What a variable holds: lists, maps and all other objects are in the heap. -/
inductive Value
  | null
  | bool (value : Bool)
  | int (value : ℤ)
  | double (toString : List ℕ) (isFinite : Bool)
  | string (value : List ℕ)
  | object (address : ℕ)
  deriving DecidableEq

inductive HeapObject
  | list (elements : List Value)
  | map (entries : List (Value × Value))
  | other

inductive JsonError
  | cyclicError (object : Value)
  | unsupportedObjectError (object : Value) (cause : Option JsonError)
  /-- What `toEncodable` throws. -/
  | toEncodableError
  | outOfFuel

/-- What the stringifier works on, and `_indent` where it is the pretty one. -/
structure JsonEncoder where
  heap : ℕ → HeapObject
  /-- `none` if it throws. -/
  toEncodable : Value → Option Value
  indent : Option (List ℕ)

structure JsonStringifier where
  sink : List ℕ
  seen : List Value
  indentLevel : ℕ

/-- `int.toString` of a number that is not negative. -/
def decimalDigits (n : ℕ) : List ℕ :=
  if n = 0 then [0x30] else (Nat.digits 10 n).reverse.map (· + 0x30)

/-- `int.toString` -/
def intToString (n : ℤ) : List ℕ :=
  if n < 0 then 0x2D :: decimalDigits n.natAbs else decimalDigits n.natAbs

namespace JsonStringifier

section Strings

variable (w : JsonStringifier)

def writeString (characters : List ℕ) : JsonStringifier := { w with sink := w.sink ++ characters }

/-- `characters.substring(start, end)` is written. -/
def writeStringSlice (characters : List ℕ) (start stop : ℕ) : JsonStringifier :=
  { w with sink := w.sink ++ (characters.take stop).drop start }

def writeCharCode (charCode : ℕ) : JsonStringifier :=
  { w with sink := w.sink ++ Unicode.utf16 charCode }

def hexDigit (x : ℕ) : ℕ := if x < 10 then 48 + x else 87 + x

/-- The `switch` on a control character, after the backslash. -/
def writeControl (charCode : ℕ) : JsonStringifier :=
  if charCode = BACKSPACE then w.writeCharCode CHAR_b
  else if charCode = TAB then w.writeCharCode CHAR_t
  else if charCode = NEWLINE then w.writeCharCode CHAR_n
  else if charCode = FORM_FEED then w.writeCharCode CHAR_f
  else if charCode = CARRIAGE_RETURN then w.writeCharCode CHAR_r
  else
    ((((w.writeCharCode CHAR_u).writeCharCode CHAR_0).writeCharCode CHAR_0).writeCharCode
      (hexDigit ((charCode >>> 4) &&& 0xF))).writeCharCode (hexDigit (charCode &&& 0xF))

/-- What has not been written of the run before `i`. -/
def flush (s : List ℕ) (offset i : ℕ) : JsonStringifier :=
  if i > offset then w.writeStringSlice s offset i else w

end Strings

/-- The loop of `writeStringContent`; `rest` is what `s` has from `i` on.  The result is the offset. -/
def contentLoop (s : List ℕ) : List ℕ → ℕ → ℕ → JsonStringifier → JsonStringifier × ℕ
  | [], _, offset, w => (w, offset)
  | charCode :: rest, i, offset, w =>
    if charCode > BACKSLASH then contentLoop s rest (i + 1) offset w
    else if charCode < 32 then
      contentLoop s rest (i + 1) (i + 1)
        (((w.flush s offset i).writeCharCode BACKSLASH).writeControl charCode)
    else if charCode = QUOTE ∨ charCode = BACKSLASH then
      contentLoop s rest (i + 1) (i + 1)
        (((w.flush s offset i).writeCharCode BACKSLASH).writeCharCode charCode)
    else contentLoop s rest (i + 1) offset w

def writeStringContent (w : JsonStringifier) (s : List ℕ) : JsonStringifier :=
  let (w, offset) := contentLoop s s 0 0 w
  if offset = 0 then w.writeString s
  else if offset < s.length then w.writeStringSlice s offset s.length
  else w

def checkCycle (w : JsonStringifier) (object : Value) : Except JsonError JsonStringifier :=
  if object ∈ w.seen then .error (.cyclicError object)
  else .ok { w with seen := w.seen ++ [object] }

def removeSeen (w : JsonStringifier) : JsonStringifier := { w with seen := w.seen.dropLast }

/-- `count` times `_indent` -/
def writeIndentation (indent : List ℕ) : ℕ → JsonStringifier → JsonStringifier
  | 0, w => w
  | count + 1, w => writeIndentation indent count (w.writeString indent)

section Containers

variable (writeObject : Value → JsonStringifier → Except JsonError JsonStringifier)

def writeList (list : List Value) (w : JsonStringifier) : Except JsonError JsonStringifier := do
  let w := w.writeString [LBRACKET]
  let w ←
    match list with
    | [] => .ok w
    | first :: rest => do
      let w ← writeObject first w
      rest.foldlM (fun w object => writeObject object (w.writeString [COMMA])) w
  .ok (w.writeString [RBRACKET])

/-- The keys and values, if all keys are strings. -/
def stringKeys (entries : List (Value × Value)) : Option (List (List ℕ × Value)) :=
  entries.mapM fun entry =>
    match entry.1 with
    | .string key => some (key, entry.2)
    | _ => none

/-- The result says whether the map was written. -/
def writeMap (entries : List (Value × Value)) (w : JsonStringifier) :
    Except JsonError (JsonStringifier × Bool) :=
  if entries.isEmpty then .ok (w.writeString [LBRACE, RBRACE], true)
  else
    match stringKeys entries with
    | none => .ok (w, false)
    | some keyValueList => do
      let w := w.writeString [LBRACE]
      let (w, _) ← keyValueList.foldlM (fun (w, separator) (key, value) => do
        let w := w.writeString separator
        let w := (w.writeStringContent key).writeString [QUOTE, COLON]
        let w ← writeObject value w
        .ok (w, [COMMA, QUOTE])) (w, [QUOTE])
      .ok (w.writeString [RBRACE], true)

variable (indent : List ℕ)

/-- `_JsonPrettyPrintMixin.writeList` -/
def prettyWriteList (list : List Value) (w : JsonStringifier) : Except JsonError JsonStringifier :=
  match list with
  | [] => .ok (w.writeString [LBRACKET, RBRACKET])
  | first :: rest => do
    let w := w.writeString [LBRACKET, NEWLINE]
    let w := { w with indentLevel := w.indentLevel + 1 }
    let w := writeIndentation indent w.indentLevel w
    let w ← writeObject first w
    let w ← rest.foldlM (fun w object =>
      let w := w.writeString [COMMA, NEWLINE]
      writeObject object (writeIndentation indent w.indentLevel w)) w
    let w := w.writeString [NEWLINE]
    let w := { w with indentLevel := w.indentLevel - 1 }
    .ok ((writeIndentation indent w.indentLevel w).writeString [RBRACKET])

/-- `_JsonPrettyPrintMixin.writeMap` -/
def prettyWriteMap (entries : List (Value × Value)) (w : JsonStringifier) :
    Except JsonError (JsonStringifier × Bool) :=
  if entries.isEmpty then .ok (w.writeString [LBRACE, RBRACE], true)
  else
    match stringKeys entries with
    | none => .ok (w, false)
    | some keyValueList => do
      let w := w.writeString [LBRACE, NEWLINE]
      let w := { w with indentLevel := w.indentLevel + 1 }
      let (w, _) ← keyValueList.foldlM (fun (w, separator) (key, value) => do
        let w := w.writeString separator
        let w := (writeIndentation indent w.indentLevel w).writeString [QUOTE]
        let w := (w.writeStringContent key).writeString [QUOTE, COLON, SPACE]
        let w ← writeObject value w
        .ok (w, [COMMA, NEWLINE])) (w, ([] : List ℕ))
      let w := w.writeString [NEWLINE]
      let w := { w with indentLevel := w.indentLevel - 1 }
      .ok ((writeIndentation indent w.indentLevel w).writeString [RBRACE], true)

end Containers

end JsonStringifier

namespace JsonEncoder

open JsonStringifier

variable (e : JsonEncoder)

section Values

variable (writeObject : Value → JsonStringifier → Except JsonError JsonStringifier)

def writeList (list : List Value) (w : JsonStringifier) : Except JsonError JsonStringifier :=
  match e.indent with
  | none => JsonStringifier.writeList writeObject list w
  | some indent => prettyWriteList writeObject indent list w

def writeMap (entries : List (Value × Value)) (w : JsonStringifier) :
    Except JsonError (JsonStringifier × Bool) :=
  match e.indent with
  | none => JsonStringifier.writeMap writeObject entries w
  | some indent => prettyWriteMap writeObject indent entries w

/-- The result says whether the object was written. -/
def writeJsonValue (object : Value) (w : JsonStringifier) :
    Except JsonError (JsonStringifier × Bool) :=
  match object with
  | .int value => .ok (w.writeString (intToString value), true)
  | .double toString isFinite =>
    if isFinite then .ok (w.writeString toString, true) else .ok (w, false)
  | .bool true => .ok (w.writeString keywordTrue, true)
  | .bool false => .ok (w.writeString keywordFalse, true)
  | .null => .ok (w.writeString keywordNull, true)
  | .string s =>
    .ok (((w.writeString [QUOTE]).writeStringContent s).writeString [QUOTE], true)
  | .object address =>
    match e.heap address with
    | .list elements => do
      let w ← w.checkCycle object
      let w ← e.writeList writeObject elements w
      .ok (w.removeSeen, true)
    | .map entries => do
      let w ← w.checkCycle object
      let (w, success) ← e.writeMap writeObject entries w
      .ok (w.removeSeen, success)
    | .other => .ok (w, false)

end Values

/-- The `try` of `writeObject`. -/
def unsupported (object : Value) (x : Except JsonError JsonStringifier) :
    Except JsonError JsonStringifier :=
  match x with
  | .ok w => .ok w
  | .error .outOfFuel => .error .outOfFuel
  | .error cause => .error (.unsupportedObjectError object (some cause))

def writeObject : ℕ → Value → JsonStringifier → Except JsonError JsonStringifier
  | 0, _, _ => .error .outOfFuel
  | fuel + 1, object, w => do
    let (w, written) ← e.writeJsonValue (writeObject fuel) object w
    if written then .ok w
    else do
      let w ← w.checkCycle object
      unsupported object (do
        let customJson ← (e.toEncodable object).elim (.error .toEncodableError) .ok
        let (w, written) ← e.writeJsonValue (writeObject fuel) customJson w
        if written then .ok w.removeSeen else .error (.unsupportedObjectError object none))

/-- `JsonEncoder.convert` -/
def stringify (fuel : ℕ) (object : Value) : Except JsonError (List ℕ) :=
  (e.writeObject fuel object ⟨[], [], 0⟩).map sink

end JsonEncoder

end DartSdk.Convert
