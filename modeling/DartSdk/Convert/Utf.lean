import DartSdk.Lib.Transducer
import DartSdk.Lib.Unicode

/-!
# The UTF-8 converters of `dart:convert`

`_Utf8Encoder` with `Utf8Encoder.convert` and `_Utf8EncoderSink`, and `_Utf8Decoder` with
`Utf8Decoder.convert`.  Strings are lists of code units.  The encoder writes into a buffer of fixed
size; what it gives to its sink is a list of bytes.  The decoder keeps a character that is not complete
from one chunk to the next.
-/

namespace DartSdk.Convert

section Constants

def ONE_BYTE_LIMIT : ℕ := 0x7F
def TWO_BYTE_LIMIT : ℕ := 0x7FF
def THREE_BYTE_LIMIT : ℕ := 0xFFFF
def FOUR_BYTE_LIMIT : ℕ := 0x10FFFF

def UNICODE_REPLACEMENT_CHARACTER_RUNE : ℕ := 0xFFFD
def UNICODE_BOM_CHARACTER_RUNE : ℕ := 0xFEFF

def isLeadSurrogate (codeUnit : UInt16) : Bool := codeUnit.toNat &&& 0xFC00 = 0xD800

def isTailSurrogate (codeUnit : UInt16) : Bool := codeUnit.toNat &&& 0xFC00 = 0xDC00

def combineSurrogatePair (lead tail : UInt16) : ℕ :=
  0x10000 + (lead.toNat &&& 0x3FF) <<< 10 ||| (tail.toNat &&& 0x3FF)

/-- What `writeCharCode` writes: a code unit, or a surrogate pair. -/
def writeCharCode (charCode : ℕ) : List UInt16 := (Unicode.utf16 charCode).map UInt16.ofNat

end Constants

namespace Utf8Encoder

section

variable (rune : ℕ) (carry : Option UInt16)

/-- The bytes of a character that takes two of them. -/
def writeTwo : List UInt8 := [.ofNat (0xC0 ||| rune >>> 6), .ofNat (0x80 ||| (rune &&& 0x3F))]

def writeThree : List UInt8 :=
  [.ofNat (0xE0 ||| rune >>> 12), .ofNat (0x80 ||| (rune >>> 6 &&& 0x3F)),
    .ofNat (0x80 ||| (rune &&& 0x3F))]

def writeFour : List UInt8 :=
  [.ofNat (0xF0 ||| rune >>> 18), .ofNat (0x80 ||| (rune >>> 12 &&& 0x3F)),
    .ofNat (0x80 ||| (rune >>> 6 &&& 0x3F)), .ofNat (0x80 ||| (rune &&& 0x3F))]

/-- `_writeSurrogate`: the bytes, and whether the next code unit was combined. -/
def writeSurrogate (leadingSurrogate nextCodeUnit : UInt16) : List UInt8 × Bool :=
  if isTailSurrogate nextCodeUnit then
    (writeFour (combineSurrogatePair leadingSurrogate nextCodeUnit), true)
  else (writeThree leadingSurrogate.toNat, false)

/-- `_fillBuffer`: the buffer and the code units that are left.  A lead surrogate at the end is left,
and so is what does not fit. -/
def fillBuffer (bufferSize : ℕ) (buffer : List UInt8) : List UInt16 → List UInt8 × List UInt16
  | [] => (buffer, [])
  | codeUnit :: rest =>
    if codeUnit.toNat ≤ ONE_BYTE_LIMIT then
      if bufferSize ≤ buffer.length then (buffer, codeUnit :: rest)
      else fillBuffer bufferSize (buffer ++ [.ofNat codeUnit.toNat]) rest
    else if isLeadSurrogate codeUnit then
      match rest with
      | [] => (buffer, [codeUnit])
      | nextCodeUnit :: rest =>
        if bufferSize ≤ buffer.length + 3 then (buffer, codeUnit :: nextCodeUnit :: rest)
        else
          let written := writeSurrogate codeUnit nextCodeUnit
          if written.2 then fillBuffer bufferSize (buffer ++ written.1) rest
          else fillBuffer bufferSize (buffer ++ written.1) (nextCodeUnit :: rest)
    else if codeUnit.toNat ≤ TWO_BYTE_LIMIT then
      if bufferSize ≤ buffer.length + 1 then (buffer, codeUnit :: rest)
      else fillBuffer bufferSize (buffer ++ writeTwo codeUnit.toNat) rest
    else
      if bufferSize ≤ buffer.length + 2 then (buffer, codeUnit :: rest)
      else fillBuffer bufferSize (buffer ++ writeThree codeUnit.toNat) rest

/-- `Utf8Encoder.convert`.  If code units are left after filling the buffer, the last one is written
by itself. -/
def convert (string : List UInt16) : List UInt8 :=
  if string.length = 0 then []
  else
    let filled := fillBuffer (string.length * 3) [] string
    match filled.2.getLast? with
    | none => filled.1
    | some lastCodeUnit => filled.1 ++ (writeSurrogate lastCodeUnit 0).1

/-- `_DEFAULT_BYTE_BUFFER_SIZE` -/
def defaultByteBufferSize : ℕ := 1024

/-- The first part of `addSlice`: a lead surrogate that was kept is written, alone or with the first
code unit. -/
def writeCarry (str : List UInt16) : List UInt8 × List UInt16 :=
  match carry, str with
  | none, _ => ([], str)
  | some lead, [] => ((writeSurrogate lead 0).1, [])
  | some lead, nextCodeUnit :: rest =>
    let written := writeSurrogate lead nextCodeUnit
    (written.1, if written.2 then rest else str)

/-- The loop of `addSlice`: the surrogate that is kept, and the blocks that are given to the sink.  It
has no result if the first argument does not bound the number of rounds. -/
def addSliceLoop : ℕ → List UInt8 → List UInt16 → Bool → Option (Option UInt16 × List (List UInt8))
  | 0, _, _, _ => none
  | rounds + 1, buffer, str, isLast =>
    let filled := fillBuffer defaultByteBufferSize buffer str
    match filled.2 with
    | [] => some (none, [filled.1])
    | [codeUnit] =>
      if isLeadSurrogate codeUnit then
        if isLast ∧ filled.1.length < defaultByteBufferSize - 3 then
          some (none, [filled.1 ++ (writeSurrogate codeUnit 0).1])
        else some (some codeUnit, [filled.1])
      else (addSliceLoop rounds [] [codeUnit] isLast).map fun result =>
        (result.1, filled.1 :: result.2)
    | codeUnit :: rest => (addSliceLoop rounds [] (codeUnit :: rest) isLast).map fun result =>
        (result.1, filled.1 :: result.2)

/-- `_Utf8EncoderSink.addSlice`, without the call of `close` at its end. -/
def addSlice (str : List UInt16) (isLast : Bool) : Option (Option UInt16 × List (List UInt8)) :=
  if str = [] ∧ isLast = false then some (carry, [])
  else
    let written := writeCarry carry str
    addSliceLoop (str.length + 1) written.1 written.2 isLast

/-- `_Utf8EncoderSink.close`: it writes a surrogate that was kept and then closes the sink. -/
def close : Option (List (List UInt8)) :=
  match carry with
  | none => some []
  | some lead => (addSlice (some lead) [] true).map Prod.snd

end

/-- All that the sink gets when strings are added and then the last one comes with `isLast`, or `close`
is called. -/
def encodeChunks (carry : Option UInt16) : List (List UInt16) → Option (List UInt16) →
    Option (List (List UInt8))
  | [], none => close carry
  | [], some last => do
    let (carry, blocks) ← addSlice carry last true
    let rest ← close carry
    some (blocks ++ rest)
  | str :: strs, last => do
    let (carry, blocks) ← addSlice carry str false
    let rest ← encodeChunks carry strs last
    some (blocks ++ rest)

end Utf8Encoder

/-- The `FormatException`s of the decoder, by the number that their message shows. -/
inductive Utf8FormatException
  /-- "Unfinished UTF-8 octet sequence" -/
  | unfinished
  /-- "Bad UTF-8 encoding" -/
  | badEncoding (unit : UInt8)
  /-- "Overlong encoding" -/
  | overlong (value : ℕ)
  /-- "Character outside valid Unicode range" -/
  | outsideRange (value : ℕ)
  deriving DecidableEq

/-- `_Utf8Decoder`; within `convert` the last three are its local variables. -/
structure Utf8Decoder where
  isFirstCharacter : Bool
  value : ℕ
  expectedUnits : ℕ
  extraUnits : ℕ
  deriving DecidableEq

namespace Utf8Decoder

open Transducer (emit andThen)

/-- A state of the decoder and what has been written to the string sink. -/
abbrev Result := Except Utf8FormatException (Utf8Decoder × List UInt16)

def new : Utf8Decoder := ⟨true, 0, 0, 0⟩

def LIMITS : List ℕ := [ONE_BYTE_LIMIT, TWO_BYTE_LIMIT, THREE_BYTE_LIMIT, FOUR_BYTE_LIMIT]

variable (allowMalformed : Bool)

section

variable (d : Utf8Decoder) (unit : UInt8)

/-- `flush`, and `close` -/
def flush : Result :=
  if 0 < d.expectedUnits then
    if !allowMalformed then .error .unfinished
    else
      .ok ({ d with value := 0, expectedUnits := 0, extraUnits := 0 },
        writeCharCode UNICODE_REPLACEMENT_CHARACTER_RUNE)
  else .ok (d, [])

/-- A character that takes several bytes is complete. -/
def endMultibyte : Result :=
  if d.value ≤ LIMITS.getD (d.extraUnits - 1) 0 ∧ !allowMalformed then .error (.overlong d.value)
  else
    let d :=
      if d.value ≤ LIMITS.getD (d.extraUnits - 1) 0 then
        { d with
          expectedUnits := 0
          extraUnits := 0
          value := UNICODE_REPLACEMENT_CHARACTER_RUNE }
      else d
    if FOUR_BYTE_LIMIT < d.value ∧ !allowMalformed then .error (.outsideRange d.value)
    else
      let d :=
        if FOUR_BYTE_LIMIT < d.value then { d with value := UNICODE_REPLACEMENT_CHARACTER_RUNE } else d
      .ok ({ d with isFirstCharacter := false },
        if !d.isFirstCharacter ∨ d.value ≠ UNICODE_BOM_CHARACTER_RUNE then writeCharCode d.value else [])

/-- The first byte of a character that is not ASCII. -/
def startMultibyte : Result :=
  if unit &&& 0xE0 = 0xC0 then
    .ok ({ d with value := (unit &&& 0x1F).toNat, expectedUnits := 1, extraUnits := 1 }, [])
  else if unit &&& 0xF0 = 0xE0 then
    .ok ({ d with value := (unit &&& 0x0F).toNat, expectedUnits := 2, extraUnits := 2 }, [])
  else if unit &&& 0xF8 = 0xF0 ∧ unit < 0xF5 then
    .ok ({ d with value := (unit &&& 0x07).toNat, expectedUnits := 3, extraUnits := 3 }, [])
  else if !allowMalformed then .error (.badEncoding unit)
  else
    .ok
      ({ isFirstCharacter := false
         value := UNICODE_REPLACEMENT_CHARACTER_RUNE
         expectedUnits := 0
         extraUnits := 0 }, writeCharCode UNICODE_REPLACEMENT_CHARACTER_RUNE)

def isOneByte : Bool := unit &&& 0x7F = unit

/-- `value = (value << 6) | (unit & 0x3f); expectedUnits--;` -/
def addUnit : Utf8Decoder :=
  { d with
    value := d.value <<< 6 ||| (unit &&& 0x3F).toNat
    expectedUnits := d.expectedUnits - 1 }

end

mutual

/-- The loop of `convert`, from the label `multibyte` on. -/
def multibyte (d : Utf8Decoder) : List UInt8 → Result
  | [] => .ok (d, [])
  | unit :: rest =>
    if unit &&& 0xC0 ≠ 0x80 then
      if !allowMalformed then .error (.badEncoding unit)
      else
        emit (writeCharCode UNICODE_REPLACEMENT_CHARACTER_RUNE)
          (oneBytes { d with expectedUnits := 0, isFirstCharacter := false } (unit :: rest))
    else if 0 < (addUnit d unit).expectedUnits then multibyte (addUnit d unit) rest
    else andThen (endMultibyte allowMalformed (addUnit d unit)) fun d => oneBytes d rest
termination_by units => (units.length, 1)
decreasing_by all_goals simp [Prod.lex_def]

/-- The loop of `convert`, from its inner loop on: ASCII characters are written at once. -/
def oneBytes (d : Utf8Decoder) (units : List UInt8) : Result :=
  let d := if 0 < (units.takeWhile isOneByte).length then { d with isFirstCharacter := false } else d
  emit ((units.takeWhile isOneByte).map UInt8.toUInt16)
    (match _hrest : units.dropWhile isOneByte with
    | [] => .ok (d, [])
    | unit :: rest =>
      andThen (startMultibyte allowMalformed d unit) fun d =>
        if 0 < d.expectedUnits then multibyte d rest else oneBytes d rest)
termination_by (units.length, 0)
decreasing_by
  all_goals
    have hlength := (List.dropWhile_suffix isOneByte (l := units)).length_le
    rw [_hrest, List.length_cons] at hlength
    simp only [Prod.lex_def]
    omega

end

/-- The fields are written back at the end of `convert`, if a character is not complete. -/
def save (d : Utf8Decoder) : Utf8Decoder :=
  if 0 < d.expectedUnits then d else { d with value := 0, expectedUnits := 0, extraUnits := 0 }

/-- `_Utf8Decoder.convert` -/
def convert (d : Utf8Decoder) (codeUnits : List UInt8) : Result :=
  (if 0 < d.expectedUnits then multibyte allowMalformed d codeUnits
  else oneBytes allowMalformed d codeUnits).map fun result => (save result.1, result.2)

/-- All that is written when the chunks are converted and the decoder is closed. -/
def decodeChunks (chunks : List (List UInt8)) : Except Utf8FormatException (List UInt16) :=
  (andThen (Transducer.feed (convert allowMalformed) new chunks) (flush allowMalformed)).map Prod.snd

/-- `Utf8Decoder.convert` -/
def decode (codeUnits : List UInt8) : Except Utf8FormatException (List UInt16) :=
  (andThen (convert allowMalformed new codeUnits) (flush allowMalformed)).map Prod.snd

end Utf8Decoder

end DartSdk.Convert
