import DartSdk.Convert.JsonParser.Tokens

/-!
# The chunked JSON parser

`parse` and `close` of `_ChunkedJsonParser`, the listener `_BuildJsonListener` and the subclass
`_JsonStringParser`.  Every round of the loop of `parse` shortens what is left of the chunk
(`parseChar_length`), so `parse` is total.
-/

namespace DartSdk.Convert

open Throwing

namespace ChunkedJsonParser

variable {β L : Type} [JsonListener L]

section Lengths

variable {p : ChunkedJsonParser β L} {rest literal : List ℕ} {char : ℕ}

theorem parseKeyword_length {chars : List ℕ} {type : ℕ} {event : JsonEvent} (hc : 0 < chars.length) :
    Leaves rest.length (p.parseKeyword (char :: rest) chars type event) := by
  unfold parseKeyword parseKeywordPrefix
  split
  · split
    · trivial
    · exact Nat.zero_le _
  split
  · trivial
  · refine returns_bind fun p => ?_
    show ((char :: rest).drop chars.length).length ≤ rest.length
    rw [List.length_drop, List.length_cons]
    omega

theorem endNumber_length {intValue : Option ℤ} :
    Leaves rest.length (p.endNumber intValue literal rest) :=
  returns_bind fun _ => Nat.le_refl _

theorem parseExponentDigits_length : Leaves rest.length (p.parseExponentDigits literal char rest) := by
  fun_induction parseExponentDigits p literal char rest with
  | case1 => exact Nat.le_refl _
  | case2 _ _ _ _ _ ih => exact ih.mono (Nat.le_succ _)
  | case3 => exact endNumber_length

theorem parseExponentDigit_length : Leaves rest.length (p.parseExponentDigit literal char rest) := by
  unfold parseExponentDigit
  split
  · trivial
  · exact parseExponentDigits_length

theorem parseExponent_length {intValue : Option ℤ} :
    Leaves (rest.length + 1) (p.parseExponent intValue literal char rest) := by
  unfold parseExponent
  split
  · split
    · exact Nat.zero_le _
    split
    · split
      · exact Nat.zero_le _
      · exact parseExponentDigit_length.mono (by simp only [List.length_cons]; omega)
    · exact parseExponentDigit_length.mono (by simp only [List.length_cons]; omega)
  · exact endNumber_length

theorem parseFractionDigits_length : Leaves rest.length (p.parseFractionDigits literal char rest) := by
  fun_induction parseFractionDigits p literal char rest with
  | case1 => exact Nat.le_refl _
  | case2 _ _ _ _ _ ih => exact ih.mono (Nat.le_succ _)
  | case3 => exact parseExponent_length

theorem parseFraction_length {intValue : ℤ} :
    Leaves (rest.length + 1) (p.parseFraction intValue literal char rest) := by
  unfold parseFraction
  split
  · split
    · exact Nat.zero_le _
    · split
      · trivial
      · exact parseFractionDigits_length.mono (by simp only [List.length_cons]; omega)
  · exact parseExponent_length

theorem parseDigits_length {sign : ℤ} {intValue : ℕ} :
    Leaves rest.length (p.parseDigits sign intValue literal char rest) := by
  fun_induction parseDigits p sign intValue literal char rest with
  | case1 => exact Nat.le_refl _
  | case2 _ _ _ _ _ _ ih => exact ih.mono (Nat.le_succ _)
  | case3 => exact parseFraction_length

theorem parseUnsigned_length {sign : ℤ} :
    Leaves rest.length (p.parseUnsigned sign literal char rest) := by
  unfold parseUnsigned
  split
  · split <;> trivial
  split
  · split
    · exact Nat.le_refl _
    · split
      · trivial
      · exact parseFraction_length
  · exact parseDigits_length

theorem parseNumber_length : Leaves rest.length (p.parseNumber char rest) := by
  unfold parseNumber
  split
  · split
    · exact Nat.le_refl _
    · exact parseUnsigned_length.mono (Nat.le_succ _)
  · exact parseUnsigned_length

variable [JsonSource β]

theorem parseStringToBuffer_length {slice : List ℕ} :
    Leaves rest.length (p.parseStringToBuffer slice rest) := by
  fun_induction parseStringToBuffer p slice rest with
  | case1 => exact returns_bind fun _ => Nat.le_refl _
  | case2 p slice char rest _ ih => exact ih.mono (Nat.le_succ _)
  | case3 => trivial
  | case4 =>
    exact returns_bind fun _ => returns_bind fun _ => returns_bind fun _ => Nat.le_succ _
  | case5 p slice char rest _ _ _ _ ih => exact ih.mono (Nat.le_succ _)
  | case6 => trivial
  | case7 => exact Nat.zero_le _
  | case8 => trivial
  | case9 => exact Nat.zero_le _
  | case10 p slice char rest _ _ _ _ p₁ _ _ p₂ _ he _ ih =>
    exact ih.mono (Nat.le_succ_of_le (parseStringEscape_length.of_ok he))

theorem parseString_length {slice : List ℕ} {bits : ℕ} :
    Leaves rest.length (p.parseString slice bits rest) := by
  fun_induction parseString p slice bits rest with
  | case1 => exact returns_bind fun _ => Nat.le_refl _
  | case2 slice bits char rest _ ih => exact ih.mono (Nat.le_succ _)
  | case3 => exact returns_bind fun _ => parseStringToBuffer_length
  | case4 => exact returns_bind fun _ => returns_bind fun _ => Nat.le_succ _
  | case5 => trivial
  | case6 slice bits char rest _ _ _ _ ih => exact ih.mono (Nat.le_succ _)

end Lengths

variable [JsonSource β]

section Parsing

section

variable (p : ChunkedJsonParser β L) (state char : ℕ) (rest : List ℕ)

/-- `parsePartial`, for a chunk that is not empty. -/
def parsePartial : Except Thrown (Reading β L) :=
  if rest = [] then .ok (p, [])
  else
    let partialType := p.partialState &&& MASK_PARTIAL
    let partialState := clearPartial p.partialState
    let p := { p with partialState := NO_PARTIAL }
    if partialType = PARTIAL_STRING then p.parsePartialString rest partialState
    else if partialType = PARTIAL_NUMERAL then p.parsePartialNumber rest partialState
    else if partialType = PARTIAL_KEYWORD then p.parsePartialKeyword rest partialState
    else .ok (p, rest)

/-- The parser, the local variable `state` of `parse` and what is left, after a round of its loop. -/
abbrev Round (β L : Type) := ChunkedJsonParser β L × ℕ × List ℕ

/-- The cases for the start of a string, a keyword or a number: the state must allow it, and then it
says that a value was read. -/
def readValue (state mask : ℕ) (rest : List ℕ)
    (read : Except Thrown (Reading β L)) : Except Thrown (Round β L) :=
  if state &&& mask ≠ 0 then p.fail rest
  else do
    let (p, rest) ← read
    .ok (p, state ||| VALUE_READ_BITS, rest)

/-- The cases `LBRACKET` and `LBRACE`. -/
def openContainer (event : JsonEvent) (stateEmpty : ℕ) : Except Thrown (Round β L) :=
  if state &&& ALLOW_VALUE_MASK ≠ 0 then p.fail (char :: rest)
  else do
    let p ← p.call event
    .ok (p.saveState state, stateEmpty, rest)

/-- The cases `RBRACKET` and `RBRACE`. -/
def closeContainer
    (stateEmpty stateValue : ℕ) (valueEvent endEvent : JsonEvent) : Except Thrown (Round β L) := do
  let p ←
    (if state = stateEmpty then p.call endEvent
    else if state = stateValue then do
      let p ← p.call valueEvent
      p.call endEvent
    else p.fail (char :: rest))
  let (p, state) ← p.restoreState
  .ok (p, state ||| VALUE_READ_BITS, rest)

/-- The case `COLON`. -/
def parseColon : Except Thrown (Round β L) :=
  if state ≠ STATE_OBJECT_KEY then p.fail (char :: rest)
  else do
    let p ← p.call .propertyName
    .ok (p, STATE_OBJECT_COLON, rest)

/-- The case `COMMA`. -/
def parseComma : Except Thrown (Round β L) :=
  if state = STATE_OBJECT_VALUE then do
    let p ← p.call .propertyValue
    .ok (p, STATE_OBJECT_COMMA, rest)
  else if state = STATE_ARRAY_VALUE then do
    let p ← p.call .arrayElement
    .ok (p, STATE_ARRAY_COMMA, rest)
  else p.fail (char :: rest)

/-- One round of the loop of `parse`. -/
def parseChar : Except Thrown (Round β L) :=
  if char = SPACE ∨ char = CARRIAGE_RETURN ∨ char = NEWLINE ∨ char = TAB then .ok (p, state, rest)
  else if char = QUOTE then
    p.readValue state ALLOW_STRING_MASK (char :: rest) (p.parseString [] 0 rest)
  else if char = LBRACKET then p.openContainer state char rest .beginArray STATE_ARRAY_EMPTY
  else if char = LBRACE then p.openContainer state char rest .beginObject STATE_OBJECT_EMPTY
  else if char = CHAR_n then
    p.readValue state ALLOW_VALUE_MASK (char :: rest) (p.parseNull (char :: rest))
  else if char = CHAR_f then
    p.readValue state ALLOW_VALUE_MASK (char :: rest) (p.parseFalse (char :: rest))
  else if char = CHAR_t then
    p.readValue state ALLOW_VALUE_MASK (char :: rest) (p.parseTrue (char :: rest))
  else if char = COLON then p.parseColon state char rest
  else if char = COMMA then p.parseComma state char rest
  else if char = RBRACKET then
    p.closeContainer state char rest STATE_ARRAY_EMPTY STATE_ARRAY_VALUE .arrayElement .endArray
  else if char = RBRACE then
    p.closeContainer state char rest STATE_OBJECT_EMPTY STATE_OBJECT_VALUE .propertyValue .endObject
  else p.readValue state ALLOW_VALUE_MASK (char :: rest) (p.parseNumber char rest)

end

section RoundLength

variable {p : ChunkedJsonParser β L} {rest : List ℕ} {state char : ℕ}

/-- At most `n` characters are left after the round. -/
def RoundLeaves (n : ℕ) (x : Except Thrown (Round β L)) : Prop :=
  Returns x (fun r => r.2.2.length ≤ n) fun _ => True

omit [JsonSource β] [JsonListener L] in
theorem readValue_length {mask : ℕ} {read : Except Thrown (Reading β L)} {chars : List ℕ}
    (hr : Leaves rest.length read) : RoundLeaves rest.length (p.readValue state mask chars read) := by
  unfold readValue
  split
  · trivial
  · exact hr.bind fun _ h => h

omit [JsonSource β] in
theorem openContainer_length {event : JsonEvent} {stateEmpty : ℕ} :
    RoundLeaves rest.length (p.openContainer state char rest event stateEmpty) := by
  unfold openContainer
  split
  · trivial
  · exact returns_bind fun _ => Nat.le_refl _

omit [JsonSource β] in
theorem closeContainer_length {stateEmpty stateValue : ℕ} {valueEvent endEvent : JsonEvent} :
    RoundLeaves rest.length
      (p.closeContainer state char rest stateEmpty stateValue valueEvent endEvent) :=
  returns_bind fun _ => returns_bind fun _ => Nat.le_refl _

omit [JsonSource β] in
theorem parseColon_length : RoundLeaves rest.length (p.parseColon state char rest) := by
  unfold parseColon
  split
  · trivial
  · exact returns_bind fun _ => Nat.le_refl _

omit [JsonSource β] in
theorem parseComma_length : RoundLeaves rest.length (p.parseComma state char rest) := by
  unfold parseComma
  split
  · exact returns_bind fun _ => Nat.le_refl _
  · split
    · exact returns_bind fun _ => Nat.le_refl _
    · trivial

theorem parseChar_length : RoundLeaves rest.length (p.parseChar state char rest) := by
  unfold parseChar
  split
  · exact Nat.le_refl _
  split
  · exact readValue_length parseString_length
  split
  · exact openContainer_length
  split
  · exact openContainer_length
  split
  · exact readValue_length (parseKeyword_length (by decide))
  split
  · exact readValue_length (parseKeyword_length (by decide))
  split
  · exact readValue_length (parseKeyword_length (by decide))
  split
  · exact parseColon_length
  split
  · exact parseComma_length
  split
  · exact closeContainer_length
  split
  · exact closeContainer_length
  · exact readValue_length parseNumber_length

end RoundLength

/-- The loop of `parse`. -/
def parseLoop (p : ChunkedJsonParser β L) (state : ℕ) (rest : List ℕ) :
    Except Thrown (ChunkedJsonParser β L) :=
  match rest with
  | [] => .ok { p with state := state }
  | char :: rest =>
    match _h : p.parseChar state char rest with
    | .error e => .error e
    | .ok (p, state, rest) => parseLoop p state rest
termination_by rest.length
decreasing_by exact Nat.lt_succ_of_le (parseChar_length.of_ok _h)

def parse (p : ChunkedJsonParser β L) (chunk : List ℕ) : Except Thrown (ChunkedJsonParser β L) :=
  let p := { p with chunkEnd := some chunk.length }
  if p.partialState ≠ NO_PARTIAL then do
    let (p, rest) ← p.parsePartial chunk
    if rest = [] then .ok p else p.parseLoop p.state rest
  else p.parseLoop p.state chunk

/-- The first part of `close`: only a number can be complete without the next character. -/
def closePartial (p : ChunkedJsonParser β L) : Except Thrown (ChunkedJsonParser β L) :=
  if p.partialState ≠ NO_PARTIAL then
    let partialType := p.partialState &&& MASK_PARTIAL
    if partialType = PARTIAL_NUMERAL then
      match p.buffer with
      | .number buffer =>
        (finishChunkNumber { p with buffer := .null } buffer (clearPartial p.partialState) [] []).map
          Prod.fst
      | _ => .error .noSuchMethodError
    else if partialType = PARTIAL_STRING then p.failWith [] "Unterminated string"
    else p.fail []
  else .ok p

def close (p : ChunkedJsonParser β L) : Except Thrown (ChunkedJsonParser β L) := do
  let p ← p.closePartial
  if p.state ≠ STATE_END then p.fail [] else .ok p

end Parsing

/-- The chunks are parsed one after the other, and then the parser is closed. -/
def parseChunks (p : ChunkedJsonParser β L) (chunks : List (List ℕ)) :
    Except Thrown (ChunkedJsonParser β L) := do
  let p ← chunks.foldlM parse p
  p.close

end ChunkedJsonParser

section Listeners

structure EventLog where
  events : List JsonEvent
  deriving DecidableEq

instance : JsonListener EventLog where
  call log event := .ok ⟨log.events ++ [event]⟩

/-- The objects that a listener builds; a map keeps the order in which its keys came first. -/
inductive Json
  | null
  | bool (value : Bool)
  | number (value : Number)
  | string (value : List ℕ)
  | list (elements : List Json)
  | map (entries : List (List ℕ × Json))

/-- `map[key] = value` -/
def putEntry (entries : List (List ℕ × Json)) (key : List ℕ) (value : Json) :
    List (List ℕ × Json) :=
  match entries with
  | [] => [(key, value)]
  | (key', value') :: entries =>
    if key' = key then (key, value) :: entries else (key', value') :: putEntry entries key value

inductive Container
  | list (elements : List Json)
  | map (entries : List (List ℕ × Json))

def Container.toJson : Container → Json
  | .list elements => .list elements
  | .map entries => .map entries

/-- The stack of a listener has containers and, below every map, its current key. -/
inductive StackItem
  | key (key : Option (List ℕ))
  | container (container : Option Container)

/-- `_BuildJsonListener`.  What was pushed last is the first of `stack`. -/
structure BuildJsonListener where
  stack : List StackItem
  currentContainer : Option Container
  key : Option (List ℕ)
  value : Json

namespace BuildJsonListener

def new : BuildJsonListener := ⟨[], none, none, .null⟩

variable (l : BuildJsonListener)

def pushContainer : BuildJsonListener :=
  match l.currentContainer with
  | some (.map _) => { l with stack := .container l.currentContainer :: .key l.key :: l.stack }
  | _ => { l with stack := .container l.currentContainer :: l.stack }

def popContainer : Except Thrown BuildJsonListener :=
  let value := (l.currentContainer.map Container.toJson).getD .null
  match l.stack with
  | .container (some (.map entries)) :: .key key :: stack =>
    .ok ⟨stack, some (.map entries), key, value⟩
  | .container (some (.map _)) :: _ => .error .rangeError
  | .container container :: stack => .ok ⟨stack, container, l.key, value⟩
  | _ => .error .rangeError

def propertyValue : Except Thrown BuildJsonListener :=
  match l.currentContainer, l.key with
  | some (.map entries), some key =>
    .ok ⟨l.stack, some (.map (putEntry entries key l.value)), none, .null⟩
  | _, _ => .error .noSuchMethodError

def arrayElement : Except Thrown BuildJsonListener :=
  match l.currentContainer with
  | some (.list elements) =>
    .ok { l with currentContainer := some (.list (elements ++ [l.value])), value := .null }
  | _ => .error .noSuchMethodError

/-- `key = value; value = null;`, where the value is a string. -/
def propertyName : Except Thrown BuildJsonListener :=
  match l.value with
  | .string key => .ok { l with key := some key, value := .null }
  | _ => .error .noSuchMethodError

instance : JsonListener BuildJsonListener where
  call l
    | .handleString value => .ok { l with value := .string value }
    | .handleNumber value => .ok { l with value := .number value }
    | .handleBool value => .ok { l with value := .bool value }
    | .handleNull => .ok { l with value := .null }
    | .beginObject => .ok { l.pushContainer with currentContainer := some (.map []) }
    | .propertyName => l.propertyName
    | .propertyValue => l.propertyValue
    | .endObject => l.popContainer
    | .beginArray => .ok { l.pushContainer with currentContainer := some (.list []) }
    | .arrayElement => l.arrayElement
    | .endArray => l.popContainer

def result : Json := l.value

end BuildJsonListener

end Listeners

section StringParser

/-- The buffer of `_JsonStringParser`. -/
structure StringBuffer where
  characters : List ℕ
  deriving DecidableEq

instance : JsonSource StringBuffer where
  beginString := ⟨[]⟩
  addCharToString buffer charCode := .ok ⟨buffer.characters ++ Unicode.utf16 charCode⟩
  addSliceToString buffer _ slice := .ok ⟨buffer.characters ++ slice⟩
  endString buffer := .ok buffer.characters
  getString _ slice _ := .ok slice

/-- The events of a `_JsonStringParser` that gets the chunks and is closed. -/
def jsonEvents (chunks : List (List ℕ)) : Except Thrown (List JsonEvent) := do
  let p ← (ChunkedJsonParser.new ⟨[]⟩ : ChunkedJsonParser StringBuffer EventLog).parseChunks chunks
  .ok p.listener.events

/-- `_parseJson`, without a reviver; `JsonDecoder.convert` -/
def parseJson (json : List ℕ) : Except Thrown Json := do
  let p := (ChunkedJsonParser.new .new : ChunkedJsonParser StringBuffer BuildJsonListener)
  let p ← p.parse json
  let p ← p.close
  .ok p.listener.result

end StringParser

end DartSdk.Convert
