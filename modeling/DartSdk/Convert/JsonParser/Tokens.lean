import DartSdk.Lib.Throwing
import DartSdk.Lib.Unicode
import Mathlib.Data.List.Basic

/-!
# The tokens of the chunked JSON parser

`_ChunkedJsonParser` and how it reads keywords, strings and numbers, which a chunk may cut anywhere.  A
chunk is the list of the characters that `getChar` gives for it.  The place where a function reads is
given by the characters that are left of the chunk, so `position` is a function of those, and what lies
between `start` and `position` is a list that grows while characters are read.

The parser is generic in its subclass (`JsonSource`: how strings are put together) and in its listener
(`JsonListener`).  The value of a double is an abstract function of its literal, so the literal stands
for it.
-/

namespace DartSdk.Convert

open Throwing

/-- What the parser, its string buffers and its listener can throw. -/
inductive Thrown
  | formatException (message : String) (offset : Option ℕ)
  | rangeError
  | noSuchMethodError
  deriving DecidableEq

inductive Number
  | int (value : ℤ)
  | double (literal : List ℕ)
  deriving DecidableEq

/-- The calls of a `_JsonListener`. -/
inductive JsonEvent
  | handleString (value : List ℕ)
  | handleNumber (value : Number)
  | handleBool (value : Bool)
  | handleNull
  | beginObject
  | propertyName
  | propertyValue
  | endObject
  | beginArray
  | arrayElement
  | endArray
  deriving DecidableEq

class JsonListener (L : Type) where
  call : L → JsonEvent → Except Thrown L

/-- What a subclass of `_ChunkedJsonParser` defines; `β` is the type of its string buffers.  A slice
comes with its position in the chunk. -/
class JsonSource (β : Type) where
  beginString : β
  addCharToString : β → ℕ → Except Thrown β
  addSliceToString : β → ℕ → List ℕ → Except Thrown β
  endString : β → Except Thrown (List ℕ)
  getString : ℕ → List ℕ → ℕ → Except Thrown (List ℕ)

/-- The field `buffer`. -/
inductive Buffer (β : Type)
  | null
  | string (buffer : β)
  | number (characters : List ℕ)

/-- `_ChunkedJsonParser`.  The state that was saved last is the first of `states`. -/
structure ChunkedJsonParser (β L : Type) where
  chunkEnd : Option ℕ
  state : ℕ
  states : List ℕ
  partialState : ℕ
  buffer : Buffer β
  listener : L

namespace ChunkedJsonParser

section Constants

def TOP_LEVEL : ℕ := 0
def INSIDE_ARRAY : ℕ := 1
def INSIDE_OBJECT : ℕ := 2
def AFTER_COLON : ℕ := 3

def ALLOW_STRING_MASK : ℕ := 8
def ALLOW_VALUE_MASK : ℕ := 4
def ALLOW_VALUE : ℕ := 0
def STRING_ONLY : ℕ := 4
def NO_VALUES : ℕ := 12

def EMPTY : ℕ := 0
def NON_EMPTY : ℕ := 16

def STATE_INITIAL : ℕ := TOP_LEVEL ||| EMPTY ||| ALLOW_VALUE
def STATE_END : ℕ := TOP_LEVEL ||| NON_EMPTY ||| NO_VALUES

def STATE_ARRAY_EMPTY : ℕ := INSIDE_ARRAY ||| EMPTY ||| ALLOW_VALUE
def STATE_ARRAY_VALUE : ℕ := INSIDE_ARRAY ||| NON_EMPTY ||| NO_VALUES
def STATE_ARRAY_COMMA : ℕ := INSIDE_ARRAY ||| NON_EMPTY ||| ALLOW_VALUE

def STATE_OBJECT_EMPTY : ℕ := INSIDE_OBJECT ||| EMPTY ||| STRING_ONLY
def STATE_OBJECT_KEY : ℕ := INSIDE_OBJECT ||| NON_EMPTY ||| NO_VALUES
def STATE_OBJECT_COLON : ℕ := AFTER_COLON ||| NON_EMPTY ||| ALLOW_VALUE
def STATE_OBJECT_VALUE : ℕ := AFTER_COLON ||| NON_EMPTY ||| NO_VALUES
def STATE_OBJECT_COMMA : ℕ := INSIDE_OBJECT ||| NON_EMPTY ||| STRING_ONLY

def VALUE_READ_BITS : ℕ := NON_EMPTY ||| NO_VALUES

def BACKSPACE : ℕ := 0x08
def TAB : ℕ := 0x09
def NEWLINE : ℕ := 0x0a
def CARRIAGE_RETURN : ℕ := 0x0d
def FORM_FEED : ℕ := 0x0c
def SPACE : ℕ := 0x20
def QUOTE : ℕ := 0x22
def PLUS : ℕ := 0x2b
def COMMA : ℕ := 0x2c
def MINUS : ℕ := 0x2d
def DECIMALPOINT : ℕ := 0x2e
def SLASH : ℕ := 0x2f
def CHAR_0 : ℕ := 0x30
def COLON : ℕ := 0x3a
def LBRACKET : ℕ := 0x5b
def BACKSLASH : ℕ := 0x5c
def RBRACKET : ℕ := 0x5d
def CHAR_a : ℕ := 0x61
def CHAR_b : ℕ := 0x62
def CHAR_e : ℕ := 0x65
def CHAR_f : ℕ := 0x66
def CHAR_l : ℕ := 0x6c
def CHAR_n : ℕ := 0x6e
def CHAR_r : ℕ := 0x72
def CHAR_s : ℕ := 0x73
def CHAR_t : ℕ := 0x74
def CHAR_u : ℕ := 0x75
def LBRACE : ℕ := 0x7b
def RBRACE : ℕ := 0x7d

def NO_PARTIAL : ℕ := 0
def PARTIAL_STRING : ℕ := 1
def PARTIAL_NUMERAL : ℕ := 2
def PARTIAL_KEYWORD : ℕ := 3
def MASK_PARTIAL : ℕ := 3

def NUM_SIGN : ℕ := 0
def NUM_ZERO : ℕ := 4
def NUM_DIGIT : ℕ := 8
def NUM_DOT : ℕ := 12
def NUM_DOT_DIGIT : ℕ := 16
def NUM_E : ℕ := 20
def NUM_E_SIGN : ℕ := 24
def NUM_E_DIGIT : ℕ := 28

def STR_PLAIN : ℕ := 0
def STR_ESCAPE : ℕ := 4
def STR_U : ℕ := 16
def STR_U_COUNT_SHIFT : ℕ := 2
def STR_U_VALUE_SHIFT : ℕ := 5

def KWD_TYPE_MASK : ℕ := 12
def KWD_TYPE_SHIFT : ℕ := 2
def KWD_NULL : ℕ := 0
def KWD_TRUE : ℕ := 4
def KWD_FALSE : ℕ := 8
def KWD_COUNT_SHIFT : ℕ := 4

def TWO_BIT_MASK : ℕ := 3

/-- `"null"`, `"true"` and `"false"` -/
def keywordNull : List ℕ := [CHAR_n, CHAR_u, CHAR_l, CHAR_l]
def keywordTrue : List ℕ := [CHAR_t, CHAR_r, CHAR_u, CHAR_e]
def keywordFalse : List ℕ := [CHAR_f, CHAR_a, CHAR_l, CHAR_s, CHAR_e]

end Constants

/-- `state & ~MASK_PARTIAL` -/
def clearPartial (partialState : ℕ) : ℕ := partialState >>> 2 <<< 2

def decimal (digits : List ℕ) : ℕ := digits.foldl (fun value char => 10 * value + (char - CHAR_0)) 0

/-- `int.parse` on the literal of an integer. -/
def parseInt (literal : List ℕ) : ℤ :=
  match literal with
  | [] => 0
  | char :: rest => if char = MINUS then -(decimal rest : ℤ) else (decimal (char :: rest) : ℤ)

variable {β L : Type} [JsonSource β]

abbrev Reading (β L : Type) := ChunkedJsonParser β L × List ℕ

def new (listener : L) : ChunkedJsonParser β L :=
  ⟨none, STATE_INITIAL, [], NO_PARTIAL, .null, listener⟩

section Basics

variable (p : ChunkedJsonParser β L)

def position (rest : List ℕ) : Option ℕ := p.chunkEnd.map (· - rest.length)

/-- `fail` with a message -/
def failWith {α : Type} (rest : List ℕ) (message : String) : Except Thrown α :=
  .error (.formatException message (p.position rest))

def fail {α : Type} (rest : List ℕ) : Except Thrown α :=
  p.failWith rest (if rest = [] then "Unexpected end of input" else "Unexpected character")

def call [JsonListener L] (event : JsonEvent) : Except Thrown (ChunkedJsonParser β L) :=
  (JsonListener.call p.listener event).map fun listener => { p with listener := listener }

def saveState (state : ℕ) : ChunkedJsonParser β L := { p with states := state :: p.states }

def restoreState : Except Thrown (ChunkedJsonParser β L × ℕ) :=
  match p.states with
  | [] => .error .rangeError
  | state :: states => .ok ({ p with states := states }, state)

def beginString : ChunkedJsonParser β L := { p with buffer := .string JsonSource.beginString }

def addCharToString (charCode : ℕ) : Except Thrown (ChunkedJsonParser β L) :=
  match p.buffer with
  | .string buffer => (JsonSource.addCharToString buffer charCode).map fun buffer =>
      { p with buffer := .string buffer }
  | _ => .error .noSuchMethodError

/-- `addSliceToString`, which every caller leaves out for an empty slice; `rest` is what follows. -/
def addSliceToString (slice rest : List ℕ) : Except Thrown (ChunkedJsonParser β L) :=
  if slice = [] then .ok p
  else
    match p.buffer with
    | .string buffer =>
      (JsonSource.addSliceToString buffer ((p.position rest).getD 0 - slice.length) slice).map
        fun buffer => { p with buffer := .string buffer }
    | _ => .error .noSuchMethodError

def endString : Except Thrown (ChunkedJsonParser β L × List ℕ) :=
  match p.buffer with
  | .string buffer => (JsonSource.endString buffer).map fun value =>
      ({ p with buffer := .null }, value)
  | _ => .error .noSuchMethodError

def getString (slice rest : List ℕ) (bits : ℕ) : Except Thrown (List ℕ) :=
  JsonSource.getString β ((p.position rest).getD 0 - slice.length) slice bits

end Basics

section Escapes

variable (p : ChunkedJsonParser β L)

def chunkString (stringState : ℕ) : Reading β L :=
  ({ p with partialState := PARTIAL_STRING ||| stringState }, [])

def chunkStringEscapeU (count value : ℕ) : Reading β L :=
  ({ p with
      partialState := PARTIAL_STRING ||| STR_U ||| count <<< STR_U_COUNT_SHIFT |||
        value <<< STR_U_VALUE_SHIFT }, [])

/-- Convert hex-digit to its value.  No value if `char` is not a hex digit, where the source has -1. -/
def parseHexDigit (char : ℕ) : Option ℕ :=
  let digit := char ^^^ 0x30
  if digit ≤ 9 then some digit
  else
    let letter := (char ||| 0x20) ^^^ 0x60
    if letter ≤ 6 ∧ 0 < letter then some (letter + 9) else none

/-- The other way to read a hex digit, in `parseStringEscape`. -/
def escapeDigit (char : ℕ) : Option ℕ :=
  let digit := char ^^^ 0x30
  if digit ≤ 9 then some digit
  else if CHAR_a ≤ char ||| 0x20 ∧ (char ||| 0x20) - CHAR_a ≤ 5 then
    some ((char ||| 0x20) - CHAR_a + 10)
  else none

/-- The end of `parseStringEscape`. -/
def endStringEscape (char : ℕ) (rest : List ℕ) :
    Except Thrown (Reading β L) := do
  let p ← p.addCharToString char
  .ok (if rest = [] then p.chunkString STR_PLAIN else (p, rest))

/-- The loop of `parseStringEscape` that reads the digits after `\u`. -/
def parseStringEscapeU (hexStart : List ℕ) (i value : ℕ) : List ℕ → Except Thrown (Reading β L)
  | [] => if i < 4 then .ok (p.chunkStringEscapeU i value) else p.endStringEscape value []
  | char :: rest =>
    if i < 4 then
      match escapeDigit char with
      | some digit => parseStringEscapeU hexStart (i + 1) (16 * value + digit) rest
      | none => p.failWith hexStart "Invalid unicode escape"
    else p.endStringEscape value (char :: rest)

/-- The characters that a letter after a backslash can stand for. -/
def escapedChar (char : ℕ) : Option ℕ :=
  if char = CHAR_b then some BACKSPACE
  else if char = CHAR_f then some FORM_FEED
  else if char = CHAR_n then some NEWLINE
  else if char = CHAR_r then some CARRIAGE_RETURN
  else if char = CHAR_t then some TAB
  else if char = SLASH ∨ char = BACKSLASH ∨ char = QUOTE then some char
  else none

def parseStringEscape : List ℕ → Except Thrown (Reading β L)
  | [] => .error .rangeError
  | char :: rest =>
    match escapedChar char with
    | some char => p.endStringEscape char rest
    | none =>
      if char = CHAR_u then p.parseStringEscapeU (char :: rest) 0 0 rest
      else if char < SPACE then p.failWith rest "Control character in string"
      else p.failWith rest "Unrecognized string escape"

variable {p : ChunkedJsonParser β L} {rest : List ℕ}

/-- At most `n` characters of the chunk are left. -/
def Leaves (n : ℕ) (x : Except Thrown (Reading β L)) : Prop :=
  Returns x (fun r => r.2.length ≤ n) fun _ => True

omit [JsonSource β] in
theorem Leaves.mono {m n : ℕ} {x : Except Thrown (Reading β L)} (h : Leaves m x) (hle : m ≤ n) :
    Leaves n x :=
  Returns.mono h (fun _ h => Nat.le_trans h hle) fun _ h => h

theorem endStringEscape_length {char : ℕ} : Leaves rest.length (p.endStringEscape char rest) := by
  refine returns_bind fun p => ?_
  by_cases hrest : rest = []
  · rw [if_pos hrest]
    exact Nat.zero_le _
  · rw [if_neg hrest]
    exact Nat.le_refl _

theorem parseStringEscapeU_length {he : List ℕ} {i value : ℕ} :
    Leaves rest.length (p.parseStringEscapeU he i value rest) := by
  induction rest generalizing i value with
  | nil =>
    unfold parseStringEscapeU
    split
    · exact Nat.le_refl _
    · exact endStringEscape_length
  | cons _ rest ih =>
    unfold parseStringEscapeU
    split
    · split
      · exact ih.mono (Nat.le_succ _)
      · trivial
    · exact endStringEscape_length

theorem parseStringEscape_length : Leaves rest.length (p.parseStringEscape rest) := by
  cases rest with
  | nil => trivial
  | cons _ rest =>
    refine Leaves.mono ?_ (Nat.le_succ rest.length)
    rw [parseStringEscape]
    split
    · exact endStringEscape_length
    · split
      · exact parseStringEscapeU_length
      · split <;> trivial

end Escapes

variable [JsonListener L]

section Keywords

variable (p : ChunkedJsonParser β L)

/-- The loop of `parseKeywordPrefix`: how many letters of the keyword the chunk has. -/
def keywordPrefixCount (chars : List ℕ) (count : ℕ) : List ℕ → Option ℕ
  | [] => some count
  | char :: rest =>
    if chars[count]? = some char then keywordPrefixCount chars (count + 1) rest else none

def parseKeywordPrefix (rest chars : List ℕ) (type : ℕ) :
    Except Thrown (Reading β L) :=
  match keywordPrefixCount chars 1 rest.tail with
  | none => p.fail rest
  | some count => .ok
      ({ p with partialState := PARTIAL_KEYWORD ||| type ||| count <<< KWD_COUNT_SHIFT }, [])

/-- `parseNull`, `parseTrue` and `parseFalse`, whose first letter has been seen. -/
def parseKeyword (rest chars : List ℕ) (type : ℕ) (event : JsonEvent) :
    Except Thrown (Reading β L) :=
  if rest.length < chars.length then p.parseKeywordPrefix rest chars type
  else if (rest.take chars.length).tail ≠ chars.tail then p.fail rest
  else do
    let p ← p.call event
    .ok (p, rest.drop chars.length)

def parseNull (rest : List ℕ) : Except Thrown (Reading β L) :=
  p.parseKeyword rest keywordNull KWD_NULL .handleNull

def parseTrue (rest : List ℕ) : Except Thrown (Reading β L) :=
  p.parseKeyword rest keywordTrue KWD_TRUE (.handleBool true)

def parseFalse (rest : List ℕ) : Except Thrown (Reading β L) :=
  p.parseKeyword rest keywordFalse KWD_FALSE (.handleBool false)

/-- The loop of `parsePartialKeyword`. -/
def continueKeyword (keywordType : ℕ) (keyword : List ℕ) (count : ℕ) :
    List ℕ → Except Thrown (Reading β L)
  | [] => .ok
      ({ p with partialState := PARTIAL_KEYWORD ||| keywordType ||| count <<< KWD_COUNT_SHIFT }, [])
  | char :: rest =>
    match keyword[count]? with
    | none => .error .rangeError
    | some expectedChar =>
      if char ≠ expectedChar then p.fail (char :: rest)
      else if count + 1 < keyword.length then continueKeyword keywordType keyword (count + 1) rest
      else do
        let p ← p.call (if keywordType = KWD_NULL then .handleNull
          else .handleBool (keywordType = KWD_TRUE))
        .ok (p, rest)

def parsePartialKeyword (rest : List ℕ) (partialState : ℕ) :
    Except Thrown (Reading β L) :=
  let keywordType := partialState &&& KWD_TYPE_MASK
  match [keywordNull, keywordTrue, keywordFalse][keywordType >>> KWD_TYPE_SHIFT]? with
  | none => .error .rangeError
  | some keyword => p.continueKeyword keywordType keyword (partialState >>> KWD_COUNT_SHIFT) rest

end Keywords

section Strings

variable (p : ChunkedJsonParser β L)

/-- `parseStringToBuffer`; `slice` lies between `start` and `position`. -/
def parseStringToBuffer (p : ChunkedJsonParser β L) (slice rest : List ℕ) :
    Except Thrown (Reading β L) :=
  match rest with
  | [] => do
    let p ← p.addSliceToString slice []
    .ok (p.chunkString STR_PLAIN)
  | char :: rest =>
    if BACKSLASH < char then parseStringToBuffer p (slice ++ [char]) rest
    else if char < SPACE then p.fail (char :: rest)
    else if char = QUOTE then do
      let p ← p.addSliceToString slice (char :: rest)
      let (p, value) ← p.endString
      let p ← p.call (.handleString value)
      .ok (p, rest)
    else if char ≠ BACKSLASH then parseStringToBuffer p (slice ++ [char]) rest
    else
      match p.addSliceToString slice (char :: rest) with
      | .error e => .error e
      | .ok p =>
        if rest = [] then .ok (p.chunkString STR_ESCAPE)
        else
          match _h : p.parseStringEscape rest with
          | .error e => .error e
          | .ok (p, rest) => if rest = [] then .ok (p, rest) else parseStringToBuffer p [] rest
termination_by rest.length
decreasing_by
  · exact Nat.lt_succ_self _
  · exact Nat.lt_succ_self _
  · exact Nat.lt_succ_of_le (parseStringEscape_length.of_ok _h)

/-- `parseString`; `slice` lies between `start` and `position`. -/
def parseString (slice : List ℕ) (bits : ℕ) : List ℕ → Except Thrown (Reading β L)
  | [] => do
    let p ← p.beginString.addSliceToString slice []
    .ok (p.chunkString STR_PLAIN)
  | char :: rest =>
    if BACKSLASH < char then parseString (slice ++ [char]) (bits ||| char) rest
    else if char = BACKSLASH then do
      let p ← p.beginString.addSliceToString slice (char :: rest)
      p.parseStringToBuffer [] (char :: rest)
    else if char = QUOTE then do
      let value ← p.getString slice (char :: rest) (bits ||| char)
      let p ← p.call (.handleString value)
      .ok (p, rest)
    else if char < SPACE then p.failWith (char :: rest) "Control character in string"
    else parseString (slice ++ [char]) (bits ||| char) rest

/-- The loop of `parsePartialString`. -/
def continueEscapeU (i value : ℕ) : List ℕ → Except Thrown (Reading β L)
  | [] =>
    if i < 4 then .ok (p.chunkStringEscapeU i value)
    else do
      let p ← p.addCharToString value
      p.parseStringToBuffer [] []
  | char :: rest =>
    if i < 4 then
      match parseHexDigit char with
      | some digit => continueEscapeU (i + 1) (16 * value + digit) rest
      | none => p.failWith (char :: rest) "Invalid hex digit"
    else do
      let p ← p.addCharToString value
      p.parseStringToBuffer [] (char :: rest)

def parsePartialString (rest : List ℕ) (partialState : ℕ) :
    Except Thrown (Reading β L) :=
  if partialState = STR_PLAIN then p.parseStringToBuffer [] rest
  else if partialState = STR_ESCAPE then do
    let (p, rest) ← p.parseStringEscape rest
    if rest = [] then .ok (p, rest) else p.parseStringToBuffer [] rest
  else
    p.continueEscapeU (partialState >>> STR_U_COUNT_SHIFT &&& TWO_BIT_MASK)
      (partialState >>> STR_U_VALUE_SHIFT) rest

end Strings

section Numbers

variable (p : ChunkedJsonParser β L)

def beginChunkNumber (state : ℕ) (literal : List ℕ) :
    Except Thrown (Reading β L) :=
  .ok ({ p with buffer := .number literal, partialState := PARTIAL_NUMERAL ||| state }, [])

section

variable (buffer : List ℕ) (state : ℕ) (slice : List ℕ)

/-- The whole chunk is part of the numeral. -/
def continueChunkNumber : Except Thrown (Reading β L) :=
  .ok ({ p with buffer := .number (buffer ++ slice), partialState := PARTIAL_NUMERAL ||| state }, [])

def finishChunkNumber (slice rest : List ℕ) : Except Thrown (Reading β L) := do
  let p ←
    if state = NUM_ZERO then p.call (.handleNumber (.int 0))
    else if state = NUM_DIGIT then p.call (.handleNumber (.int (parseInt (buffer ++ slice))))
    else if state = NUM_DOT_DIGIT ∨ state = NUM_E_DIGIT then
      p.call (.handleNumber (.double (buffer ++ slice)))
    else p.failWith [] "Unterminated number literal"
  .ok (p, rest)

/-- The last loop of `parsePartialNumber`. -/
def partialExponentDigits (state : ℕ) (slice : List ℕ) : List ℕ → Except Thrown (Reading β L)
  | [] => p.continueChunkNumber buffer state slice
  | char :: rest =>
    if char ^^^ CHAR_0 ≤ 9 then
      partialExponentDigits NUM_E_DIGIT (slice ++ [char]) rest
    else p.finishChunkNumber buffer state slice (char :: rest)

def partialExponent : List ℕ → Except Thrown (Reading β L)
  | [] => p.continueChunkNumber buffer state slice
  | char :: rest =>
    if state = NUM_E ∧ (char = PLUS ∨ char = MINUS) then
      p.partialExponentDigits buffer NUM_E_SIGN (slice ++ [char]) rest
    else p.partialExponentDigits buffer state slice (char :: rest)

/-- The loop `while (state == NUM_DOT_DIGIT)`. -/
def partialFractionDigits (slice : List ℕ) : List ℕ → Except Thrown (Reading β L)
  | [] => p.continueChunkNumber buffer state slice
  | char :: rest =>
    if state = NUM_DOT_DIGIT then
      if 9 < char ^^^ CHAR_0 then
        if char ||| 0x20 = CHAR_e then p.partialExponent buffer NUM_E (slice ++ [char]) rest
        else p.finishChunkNumber buffer state slice (char :: rest)
      else partialFractionDigits (slice ++ [char]) rest
    else p.partialExponent buffer state slice (char :: rest)

def partialFraction : List ℕ → Except Thrown (Reading β L)
  | [] => p.continueChunkNumber buffer state slice
  | char :: rest =>
    if state = NUM_DOT then
      if 9 < char ^^^ CHAR_0 then p.fail (char :: rest)
      else p.partialFractionDigits buffer NUM_DOT_DIGIT slice (char :: rest)
    else p.partialFractionDigits buffer state slice (char :: rest)

/-- The loop `while (state == NUM_DIGIT)`. -/
def partialDigits (slice : List ℕ) : List ℕ → Except Thrown (Reading β L)
  | [] => p.continueChunkNumber buffer state slice
  | char :: rest =>
    if state = NUM_DIGIT then
      if 9 < char ^^^ CHAR_0 then
        if char = DECIMALPOINT then p.partialFraction buffer NUM_DOT (slice ++ [char]) rest
        else if char ||| 0x20 = CHAR_e then p.partialFraction buffer NUM_E (slice ++ [char]) rest
        else p.finishChunkNumber buffer state slice (char :: rest)
      else partialDigits (slice ++ [char]) rest
    else p.partialFraction buffer state slice (char :: rest)

def partialZero : List ℕ → Except Thrown (Reading β L)
  | [] => p.continueChunkNumber buffer state slice
  | char :: rest =>
    if state = NUM_ZERO then
      if char ^^^ CHAR_0 ≤ 9 then p.fail (char :: rest)
      else p.partialDigits buffer NUM_DIGIT slice (char :: rest)
    else p.partialDigits buffer state slice (char :: rest)

end

/-- `parsePartialNumber`.  Its parts are those between two tests for the end of the chunk. -/
def parsePartialNumber (rest : List ℕ) (state : ℕ) :
    Except Thrown (Reading β L) :=
  match p.buffer with
  | .number buffer =>
    let p := { p with buffer := .null }
    match rest with
    | [] => p.continueChunkNumber buffer state []
    | char :: rest =>
      if state = NUM_SIGN then
        if char ^^^ CHAR_0 ≤ 9 then
          p.partialZero buffer (if char ^^^ CHAR_0 = 0 then NUM_ZERO else NUM_DIGIT) [char] rest
        else p.fail (char :: rest)
      else p.partialZero buffer state [] (char :: rest)
  | _ => .error .noSuchMethodError

section

variable (sign : ℤ) (intValue : Option ℤ) (literal : List ℕ) (char : ℕ)

/-- The end of `parseNumber`.  There is an integer unless a point or an exponent has been read. -/
def endNumber (literal rest : List ℕ) : Except Thrown (Reading β L) := do
  let p ← p.call (.handleNumber
    (match intValue with
    | some value => .int value
    | none => .double literal))
  .ok (p, rest)

/-- The loop that reads the digits of the exponent; `char` is one. -/
def parseExponentDigits (literal : List ℕ) (char : ℕ) : List ℕ → Except Thrown (Reading β L)
  | [] => p.beginChunkNumber NUM_E_DIGIT (literal ++ [char])
  | next :: rest =>
    if next ^^^ CHAR_0 ≤ 9 then parseExponentDigits (literal ++ [char]) next rest
    else p.endNumber none (literal ++ [char]) (next :: rest)

def parseExponentDigit (rest : List ℕ) : Except Thrown (Reading β L) :=
  if 9 < char ^^^ CHAR_0 then p.failWith (char :: rest) "Missing expected digit"
  else p.parseExponentDigits literal char rest

def parseExponent (rest : List ℕ) : Except Thrown (Reading β L) :=
  if char ||| 0x20 = CHAR_e then
    match rest with
    | [] => p.beginChunkNumber NUM_E (literal ++ [char])
    | next :: rest =>
      if next = PLUS ∨ next = MINUS then
        match rest with
        | [] => p.beginChunkNumber NUM_E_SIGN (literal ++ [char] ++ [next])
        | digit :: rest => p.parseExponentDigit (literal ++ [char] ++ [next]) digit rest
      else p.parseExponentDigit (literal ++ [char]) next rest
  else p.endNumber intValue literal (char :: rest)

/-- The loop that reads the digits after the point; `char` is one. -/
def parseFractionDigits (literal : List ℕ) (char : ℕ) : List ℕ → Except Thrown (Reading β L)
  | [] => p.beginChunkNumber NUM_DOT_DIGIT (literal ++ [char])
  | next :: rest =>
    if next ^^^ CHAR_0 ≤ 9 then parseFractionDigits (literal ++ [char]) next rest
    else p.parseExponent none (literal ++ [char]) next rest

def parseFraction (intValue : ℤ) (literal : List ℕ) (char : ℕ)
    (rest : List ℕ) : Except Thrown (Reading β L) :=
  if char = DECIMALPOINT then
    match rest with
    | [] => p.beginChunkNumber NUM_DOT (literal ++ [char])
    | digit :: rest =>
      if 9 < digit ^^^ CHAR_0 then p.fail (digit :: rest)
      else p.parseFractionDigits (literal ++ [char]) digit rest
  else p.parseExponent (some intValue) literal char rest

/-- The loop that reads the digits before the point; `char` is one. -/
def parseDigits (intValue : ℕ) (literal : List ℕ) (char : ℕ) : List ℕ → Except Thrown (Reading β L)
  | [] => p.beginChunkNumber NUM_DIGIT (literal ++ [char])
  | next :: rest =>
    if next ^^^ CHAR_0 ≤ 9 then
      parseDigits (10 * intValue + (char ^^^ CHAR_0)) (literal ++ [char]) next rest
    else
      p.parseFraction (sign * (10 * intValue + (char ^^^ CHAR_0) : ℕ)) (literal ++ [char]) next rest

def parseUnsigned (rest : List ℕ) : Except Thrown (Reading β L) :=
  if 9 < char ^^^ CHAR_0 then
    if sign < 0 then p.failWith (char :: rest) "Missing expected digit"
    else p.failWith (char :: rest) "Unexpected character"
  else if char ^^^ CHAR_0 = 0 then
    match rest with
    | [] => p.beginChunkNumber NUM_ZERO (literal ++ [char])
    | next :: rest =>
      if next ^^^ CHAR_0 ≤ 9 then p.fail (next :: rest)
      else p.parseFraction (sign * 0) (literal ++ [char]) next rest
  else p.parseDigits sign 0 literal char rest

def parseNumber (rest : List ℕ) : Except Thrown (Reading β L) :=
  if char = MINUS then
    match rest with
    | [] => p.beginChunkNumber NUM_SIGN [char]
    | next :: rest => p.parseUnsigned (-1) [char] next rest
  else p.parseUnsigned 1 [] char rest

end

end Numbers

end ChunkedJsonParser

end DartSdk.Convert
