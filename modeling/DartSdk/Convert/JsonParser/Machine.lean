import DartSdk.Convert.JsonParser

/-!
# The JSON parser as a machine

A machine that reads one character at a time.  Its places are the states of `_ChunkedJsonParser` and
its tokens are the partial states, both without their encoding in bits; `toParser` encodes them.
Exceptions are told apart by their type only, since their messages depend on how the text is cut.
-/

namespace DartSdk.Convert

open JsonSource

section Outcomes

inductive ThrownType
  | formatException
  | rangeError
  | noSuchMethodError
  deriving DecidableEq

def Thrown.type : Thrown → ThrownType
  | .formatException _ _ => .formatException
  | .rangeError => .rangeError
  | .noSuchMethodError => .noSuchMethodError

/-- The value, or the type of the exception. -/
def outcome {α : Type} (x : Except Thrown α) : Except ThrownType α := x.mapError Thrown.type

variable {α γ : Type} {x : Except Thrown α}

@[simp] theorem outcome_ok {a : α} : outcome (.ok a) = .ok a := rfl

@[simp] theorem outcome_bind {f : α → Except Thrown γ} :
    outcome (x >>= f) = outcome x >>= fun a => outcome (f a) := by
  cases x <;> rfl

@[simp] theorem outcome_map {f : α → γ} : outcome (x.map f) = (outcome x).map f := by
  cases x <;> rfl

theorem outcome_eq_ok {a : α} : outcome x = .ok a ↔ x = .ok a := by
  cases x <;> simp [outcome, Except.mapError]

theorem outcome_eq_formatException :
    outcome x = .error .formatException ↔
      ∃ message offset, x = .error (.formatException message offset) := by
  cases x with
  | ok a => exact ⟨nofun, fun ⟨_, _, h⟩ => (nomatch h)⟩
  | error e =>
    cases e with
    | formatException message offset => exact ⟨fun _ => ⟨message, offset, rfl⟩, fun _ => rfl⟩
    | rangeError | noSuchMethodError => exact ⟨nofun, fun ⟨_, _, h⟩ => (nomatch h)⟩

end Outcomes

/-- How slices may be cut: the buffer does not depend on it, and `getString` is a shorter way to put a
slice into a new buffer.  `bits` is not less than any of the characters. -/
class LawfulJsonSource (β : Type) [JsonSource β] : Prop where
  addSlice_nil : ∀ (b : β) (start : ℕ), outcome (addSliceToString b start []) = .ok b
  addSlice_append : ∀ (b : β) (start start' : ℕ) (s t : List ℕ),
    outcome (addSliceToString b start (s ++ t)) =
      outcome (addSliceToString b start s) >>= fun b =>
        outcome (addSliceToString b start' t)
  addSlice_start : ∀ (b : β) (start start' : ℕ) (s : List ℕ),
    outcome (addSliceToString b start s) =
      outcome (addSliceToString b start' s)
  addSlice_error : ∀ (b : β) (start : ℕ) (s : List ℕ) (t : ThrownType),
    outcome (addSliceToString b start s) = .error t → t = .formatException
  getString_eq : ∀ (start : ℕ) (s : List ℕ) (bits : ℕ), (∀ c ∈ s, c ≤ bits) →
    outcome (getString β start s bits) =
      outcome (addSliceToString beginString start s) >>= fun b : β =>
        outcome (endString b)

instance : LawfulJsonSource StringBuffer where
  addSlice_nil b _ := by
    show Except.ok (StringBuffer.mk (b.characters ++ [])) = Except.ok b
    rw [List.append_nil]
  addSlice_append b _ _ s t := by
    show Except.ok (StringBuffer.mk (b.characters ++ (s ++ t))) =
      Except.ok (StringBuffer.mk (b.characters ++ s ++ t))
    rw [List.append_assoc]
  addSlice_start _ _ _ _ := rfl
  addSlice_error _ _ _ _ h := (nomatch h)
  getString_eq _ _ _ _ := rfl

open ChunkedJsonParser

inductive Place
  | initial
  | finished
  | arrayEmpty
  | arrayValue
  | arrayComma
  | objectEmpty
  | objectKey
  | objectColon
  | objectValue
  | objectComma
  deriving DecidableEq

namespace Place

def bits : Place → ℕ
  | initial => STATE_INITIAL
  | finished => STATE_END
  | arrayEmpty => STATE_ARRAY_EMPTY
  | arrayValue => STATE_ARRAY_VALUE
  | arrayComma => STATE_ARRAY_COMMA
  | objectEmpty => STATE_OBJECT_EMPTY
  | objectKey => STATE_OBJECT_KEY
  | objectColon => STATE_OBJECT_COLON
  | objectValue => STATE_OBJECT_VALUE
  | objectComma => STATE_OBJECT_COMMA

/-- A value was read. -/
def after : Place → Place
  | initial => finished
  | arrayEmpty => arrayValue
  | arrayComma => arrayValue
  | objectEmpty => objectKey
  | objectComma => objectKey
  | objectColon => objectValue
  | place => place

def allowsValue : Place → Bool
  | initial => true
  | arrayEmpty => true
  | arrayComma => true
  | objectColon => true
  | _ => false

def allowsString : Place → Bool
  | objectEmpty => true
  | objectComma => true
  | place => place.allowsValue

theorem bits_after (place : Place) : place.bits ||| VALUE_READ_BITS = place.after.bits := by
  cases place <;> rfl

theorem bits_allowsValue (place : Place) :
    place.bits &&& ALLOW_VALUE_MASK ≠ 0 ↔ place.allowsValue = false := by
  cases place <;> decide

theorem bits_allowsString (place : Place) :
    place.bits &&& ALLOW_STRING_MASK ≠ 0 ↔ place.allowsString = false := by
  cases place <;> decide

theorem bits_inj {place place' : Place} : place.bits = place'.bits ↔ place = place' := by
  cases place <;> cases place' <;> decide

end Place

inductive NumberState
  | sign
  | zero
  | digit
  | dot
  | dotDigit
  | e
  | eSign
  | eDigit
  deriving DecidableEq

/-- What a character does to a number: it belongs to it, it is the first one after it, or neither. -/
inductive NumberStep
  | next (state : NumberState)
  | stop
  | fail

namespace NumberState

def bits : NumberState → ℕ
  | sign => NUM_SIGN
  | zero => NUM_ZERO
  | digit => NUM_DIGIT
  | dot => NUM_DOT
  | dotDigit => NUM_DOT_DIGIT
  | e => NUM_E
  | eSign => NUM_E_SIGN
  | eDigit => NUM_E_DIGIT

def step (state : NumberState) (char : ℕ) : NumberStep :=
  match state with
  | sign =>
    if char ^^^ CHAR_0 ≤ 9 then .next (if char ^^^ CHAR_0 = 0 then zero else digit) else .fail
  | zero =>
    if char ^^^ CHAR_0 ≤ 9 then .fail
    else if char = DECIMALPOINT then .next dot
    else if char ||| 0x20 = CHAR_e then .next e
    else .stop
  | digit =>
    if char ^^^ CHAR_0 ≤ 9 then .next digit
    else if char = DECIMALPOINT then .next dot
    else if char ||| 0x20 = CHAR_e then .next e
    else .stop
  | dot => if char ^^^ CHAR_0 ≤ 9 then .next dotDigit else .fail
  | dotDigit =>
    if char ^^^ CHAR_0 ≤ 9 then .next dotDigit
    else if char ||| 0x20 = CHAR_e then .next e
    else .stop
  | e =>
    if char = PLUS ∨ char = MINUS then .next eSign
    else if char ^^^ CHAR_0 ≤ 9 then .next eDigit
    else .fail
  | eSign => if char ^^^ CHAR_0 ≤ 9 then .next eDigit else .fail
  | eDigit => if char ^^^ CHAR_0 ≤ 9 then .next eDigit else .stop

def value (state : NumberState) (literal : List ℕ) : Option Number :=
  match state with
  | zero => some (.int 0)
  | digit => some (.int (parseInt literal))
  | dotDigit => some (.double literal)
  | eDigit => some (.double literal)
  | _ => none

end NumberState

inductive Keyword
  | null
  | true
  | false
  deriving DecidableEq

namespace Keyword

def bits : Keyword → ℕ
  | null => KWD_NULL
  | true => KWD_TRUE
  | false => KWD_FALSE

def chars : Keyword → List ℕ
  | null => keywordNull
  | true => keywordTrue
  | false => keywordFalse

def event : Keyword → JsonEvent
  | null => .handleNull
  | true => .handleBool Bool.true
  | false => .handleBool Bool.false

end Keyword

inductive Token (β : Type)
  | none
  | plain (buffer : β)
  | escape (buffer : β)
  | unicode (buffer : β) (count : Fin 4) (value : ℕ)
  | number (state : NumberState) (literal : List ℕ)
  | keyword (kind : Keyword) (count : ℕ)

namespace Token

variable {β : Type}

def partialState : Token β → ℕ
  | none => NO_PARTIAL
  | plain _ => PARTIAL_STRING ||| STR_PLAIN
  | escape _ => PARTIAL_STRING ||| STR_ESCAPE
  | unicode _ count value =>
    PARTIAL_STRING ||| STR_U ||| count.val <<< STR_U_COUNT_SHIFT ||| value <<< STR_U_VALUE_SHIFT
  | number state _ => PARTIAL_NUMERAL ||| state.bits
  | keyword kind count => PARTIAL_KEYWORD ||| kind.bits ||| count <<< KWD_COUNT_SHIFT

def buffer : Token β → Buffer β
  | none => .null
  | plain buffer => .string buffer
  | escape buffer => .string buffer
  | unicode buffer _ _ => .string buffer
  | number _ literal => .number literal
  | keyword _ _ => .null

end Token

structure Machine (β L : Type) where
  place : Place
  stack : List Place
  token : Token β
  listener : L

namespace Machine

variable {β L : Type}

def new (listener : L) : Machine β L := ⟨.initial, [], .none, listener⟩

/-- The parser that stands for the machine; `state` is its field, which the loop of `parse` sets at
the end of the chunk. -/
def toParser (m : Machine β L) (chunkEnd : Option ℕ) (state : ℕ) : ChunkedJsonParser β L :=
  ⟨chunkEnd, state, m.stack.map Place.bits, m.token.partialState, m.token.buffer, m.listener⟩

abbrev withToken (m : Machine β L) (token : Token β) : Machine β L := { m with token := token }

variable [JsonSource β] [JsonListener L]

def call (m : Machine β L) (event : JsonEvent) : Except ThrownType (Machine β L) :=
  (outcome (JsonListener.call m.listener event)).map fun listener => { m with listener := listener }

section

variable (m : Machine β L) (buffer : β) (char : ℕ)

def readPlain : Except ThrownType (Machine β L) :=
  if char < SPACE then .error .formatException
  else if char = QUOTE then do
    let value ← outcome (endString buffer)
    (m.withToken .none).call (.handleString value)
  else if char = BACKSLASH then .ok (m.withToken (.escape buffer))
  else do
    let buffer ← outcome (addSliceToString buffer 0 [char])
    .ok (m.withToken (.plain buffer))

def addChar : Except ThrownType (Machine β L) := do
  let buffer ← outcome (addCharToString buffer char)
  .ok (m.withToken (.plain buffer))

def readEscape : Except ThrownType (Machine β L) :=
  match escapedChar char with
  | some char => m.addChar buffer char
  | none =>
    if char = CHAR_u then .ok (m.withToken (.unicode buffer 0 0)) else .error .formatException

def readUnicode (count : Fin 4) (value char : ℕ) : Except ThrownType (Machine β L) :=
  match escapeDigit char with
  | none => .error .formatException
  | some digit =>
    if h : count.val + 1 < 4 then
      .ok (m.withToken (.unicode buffer ⟨count + 1, h⟩ (16 * value + digit)))
    else m.addChar buffer (16 * value + digit)

def readKeyword (keyword : Keyword) (count char : ℕ) : Except ThrownType (Machine β L) :=
  match keyword.chars[count]? with
  | none => .error .rangeError
  | some expectedChar =>
    if char ≠ expectedChar then .error .formatException
    else if count + 1 < keyword.chars.length then .ok (m.withToken (.keyword keyword (count + 1)))
    else (m.withToken .none).call keyword.event

/-- A number that is complete is given to the listener. -/
def finish : Except ThrownType (Machine β L) :=
  match m.token with
  | .number state literal =>
    match state.value literal with
    | some value => (m.withToken .none).call (.handleNumber value)
    | none => .error .formatException
  | _ => .ok m

def beginNumber : Except ThrownType (Machine β L) :=
  if char = MINUS then .ok (m.withToken (.number .sign [char]))
  else if char ^^^ CHAR_0 ≤ 9 then
    .ok (m.withToken (.number (if char ^^^ CHAR_0 = 0 then .zero else .digit) [char]))
  else .error .formatException

/-- If the place allows a value, the token is begun. -/
def beginToken (allowed : Bool)
    (begin : Machine β L → Except ThrownType (Machine β L)) : Except ThrownType (Machine β L) :=
  if allowed then begin { m with place := m.place.after } else .error .formatException

def openContainer (event : JsonEvent) (place : Place) : Except ThrownType (Machine β L) :=
  if m.place.allowsValue then do
    let m' ← m.call event
    .ok { m' with place := place, stack := m.place :: m.stack }
  else .error .formatException

def restore : Except ThrownType (Machine β L) :=
  match m.stack with
  | [] => .error .rangeError
  | place :: stack => .ok { m with place := place.after, stack := stack }

def closeContainer (empty value : Place) (valueEvent endEvent : JsonEvent) :
    Except ThrownType (Machine β L) := do
  let m ←
    (if m.place = empty then m.call endEvent
    else if m.place = value then do
      let m ← m.call valueEvent
      m.call endEvent
    else .error .formatException)
  m.restore

def readColon : Except ThrownType (Machine β L) :=
  if m.place = .objectKey then do
    let m ← m.call .propertyName
    .ok { m with place := .objectColon }
  else .error .formatException

def readComma : Except ThrownType (Machine β L) :=
  if m.place = .objectValue then do
    let m ← m.call .propertyValue
    .ok { m with place := .objectComma }
  else if m.place = .arrayValue then do
    let m ← m.call .arrayElement
    .ok { m with place := .arrayComma }
  else .error .formatException

/-- A character that does not belong to a token. -/
def start : Except ThrownType (Machine β L) :=
  if char = SPACE ∨ char = CARRIAGE_RETURN ∨ char = NEWLINE ∨ char = TAB then .ok m
  else if char = QUOTE then
    m.beginToken m.place.allowsString fun m => .ok (m.withToken (.plain beginString))
  else if char = LBRACKET then m.openContainer .beginArray .arrayEmpty
  else if char = LBRACE then m.openContainer .beginObject .objectEmpty
  else if char = CHAR_n then
    m.beginToken m.place.allowsValue fun m => .ok (m.withToken (.keyword .null 1))
  else if char = CHAR_f then
    m.beginToken m.place.allowsValue fun m => .ok (m.withToken (.keyword .false 1))
  else if char = CHAR_t then
    m.beginToken m.place.allowsValue fun m => .ok (m.withToken (.keyword .true 1))
  else if char = COLON then m.readColon
  else if char = COMMA then m.readComma
  else if char = RBRACKET then m.closeContainer .arrayEmpty .arrayValue .arrayElement .endArray
  else if char = RBRACE then m.closeContainer .objectEmpty .objectValue .propertyValue .endObject
  else m.beginToken m.place.allowsValue fun m => m.beginNumber char

end

def step (m : Machine β L) (char : ℕ) : Except ThrownType (Machine β L) :=
  match m.token with
  | .none => m.start char
  | .plain buffer => m.readPlain buffer char
  | .escape buffer => m.readEscape buffer char
  | .unicode buffer count value => m.readUnicode buffer count value char
  | .number state literal =>
    match state.step char with
    | .next state => .ok (m.withToken (.number state (literal ++ [char])))
    -- The character is read again after the number.
    | .stop => m.finish >>= fun m => m.start char
    | .fail => .error .formatException
  | .keyword keyword count => m.readKeyword keyword count char

def run (m : Machine β L) (text : List ℕ) : Except ThrownType (Machine β L) := text.foldlM step m

/-- What `close` does. -/
def close (m : Machine β L) : Except ThrownType L :=
  match m.token with
  | .none => if m.place = .finished then .ok m.listener else .error .formatException
  | .number _ _ => do
    let m ← m.finish
    if m.place = .finished then .ok m.listener else .error .formatException
  | _ => .error .formatException

variable {m : Machine β L}

theorem run_cons {char : ℕ} {text : List ℕ} :
    m.run (char :: text) = m.step char >>= fun m => m.run text :=
  List.foldlM_cons

theorem run_append {text text' : List ℕ} :
    m.run (text ++ text') = m.run text >>= fun m => m.run text' :=
  List.foldlM_append

end Machine

end DartSdk.Convert
