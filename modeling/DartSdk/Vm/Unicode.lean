import DartSdk.Lib.Unicode
import Mathlib.Data.List.Basic

/-!
# UTF-8 in the virtual machine

`Utf8` encodes the code points of a string and decodes bytes into code units.  A buffer is the list of
its elements, and an access outside of it gives `none`.  Characters are `ℕ` where the source has
`uint32_t` or an `int32_t` that is not negative.
-/

namespace DartSdk.Vm

open Unicode

section Buffers

variable {α : Type}

/-- `dst[i] = value` -/
def write (dst : List α) (i : ℕ) (value : α) : Option (List α) :=
  if i < dst.length then some (dst.set i value) else none

/-- `dst[0] = …; dst[1] = …; …` for the pointer `&dst[pos]`. -/
def writeAll : List α → ℕ → List α → Option (List α)
  | dst, _, [] => some dst
  | dst, pos, value :: values => (write dst pos value).bind fun dst => writeAll dst (pos + 1) values

end Buffers

section Model

namespace Utf16

def kMaxCodeUnit : ℕ := 0xFFFF

/-- The length of a code point in code units. -/
def length (ch : ℕ) : ℕ := if ch ≤ kMaxCodeUnit then 1 else 2

def isLeadSurrogate (ch : ℕ) : Bool := ch &&& 0xFFFFFC00 = 0xD800
def isTrailSurrogate (ch : ℕ) : Bool := ch &&& 0xFFFFFC00 = 0xDC00

def decode (lead trail : ℕ) : ℕ := 0x10000 + (lead &&& 0x3FF) <<< 10 + (trail &&& 0x3FF)

def kLeadSurrogateOffset : ℕ := 0xD800 - 0x10000 >>> 10

def encode (codepoint : ℕ) : List UInt16 :=
  [.ofNat (kLeadSurrogateOffset + codepoint >>> 10), .ofNat (0xDC00 + (codepoint &&& 0x3FF))]

end Utf16

structure CodePointIterator where
  ch : ℕ
  index : ℤ

namespace CodePointIterator

def start : CodePointIterator := ⟨0, -1⟩

def next (str : List UInt16) (it : CodePointIterator) : Option CodePointIterator :=
  let length := Utf16.length it.ch
  if it.index < str.length - length then
    let index := it.index + length
    let ch := (str.getD index.toNat 0).toNat
    let ch2 := (str.getD (index.toNat + 1) 0).toNat
    if Utf16.isLeadSurrogate ch ∧ index < str.length - 1 ∧ Utf16.isTrailSurrogate ch2 then
      some ⟨Utf16.decode ch ch2, index⟩
    else some ⟨ch, index⟩
  else none

/-- The code points that a loop over the iterator goes through. -/
def toList (str : List UInt16) : ℕ → CodePointIterator → List ℕ
  | 0, _ => []
  | fuel + 1, it =>
    match it.next str with
    | none => []
    | some it => it.ch :: toList str fuel it

end CodePointIterator

namespace Utf8

inductive Kind
  | latin1
  | bmp
  | supplementary
  deriving DecidableEq

def kMaxOneByteChar : ℕ := 0x7F
def kMaxTwoByteChar : ℕ := 0x7FF
def kMaxThreeByteChar : ℕ := 0xFFFF

def kTrailBytes : List ℕ :=
  List.replicate 128 1 ++ List.replicate 64 0 ++ List.replicate 32 2 ++ List.replicate 16 3 ++
    List.replicate 8 4 ++ List.replicate 4 5 ++ List.replicate 2 6 ++ List.replicate 2 0

def kMagicBits : List ℕ :=
  [0, 0x00000000, 0x00003080, 0x000E2080, 0x03C82080, 0xFA082080, 0x82082080]

/-- The least code points of the shortest forms. -/
def kOverlongMinimum : List ℕ := [0, 0x0, 0x80, 0x800, 0x10000, 0xFFFFFFFF, 0xFFFFFFFF]

def isTrailByte (codeUnit : UInt8) : Bool := codeUnit.toNat &&& 0xC0 = 0x80

/-- The start of a code point up to `U+00FF`. -/
def isLatin1SequenceStart (codeUnit : UInt8) : Bool := codeUnit.toNat ≤ 0xC3

/-- The start of a code point from `U+10000` on. -/
def isSupplementarySequenceStart (codeUnit : UInt8) : Bool := 0xF0 ≤ codeUnit.toNat

def isNonShortestForm (codePoint numCodeUnits : ℕ) : Bool :=
  codePoint < kOverlongMinimum.getD numCodeUnits 0

/-- Above plane 17.  The code point is of type `uint32_t`; where `intptr_t` has 32 bits, a code point
that becomes negative is out of range as well. -/
def isOutOfRange (codePoint : ℕ) : Bool := maxCodePoint < codePoint

/-- One round of the loop of `CodeUnitCount`. -/
def countCodeUnit (acc : ℕ × Kind) (codeUnit : UInt8) : ℕ × Kind :=
  if isTrailByte codeUnit then acc
  else if isLatin1SequenceStart codeUnit then (acc.1 + 1, acc.2)
  else if isSupplementarySequenceStart codeUnit then (acc.1 + 2, .supplementary)
  else (acc.1 + 1, if acc.2 = .latin1 then .bmp else acc.2)

variable (utf8Array : List UInt8)

def codeUnitCount : ℕ × Kind :=
  utf8Array.foldl countCodeUnit (0, .latin1)

/-- The loop over the trail bytes, `n` of them from `i` on: the character, and whether it is
malformed, or `none` if the array ends before. -/
def readTrailBytes (arrayLen : ℕ) : ℕ → ℕ → ℕ → Bool → Option (Option (ℕ × Bool))
  | 0, _, ch, isMalformed => some (some (ch, isMalformed))
  | n + 1, i, ch, isMalformed =>
    if i < arrayLen then
      utf8Array[i]?.bind fun codeUnit =>
        readTrailBytes arrayLen n (i + 1) ((ch <<< 6 + codeUnit.toNat) % 2 ^ 32)
          (isMalformed || !isTrailByte codeUnit)
    else some none

/-- The test after the loop over the trail bytes: the character and its length. -/
def checkSequence (numTrailBytes ch : ℕ) (isMalformed : Bool) : Option (ℕ × ℕ) :=
  let i := max 1 numTrailBytes
  let ch := (ch + 2 ^ 32 - kMagicBits.getD numTrailBytes 0) % 2 ^ 32
  if isMalformed = false ∧ i = numTrailBytes ∧ !isOutOfRange ch ∧ !isNonShortestForm ch i then
    some (ch, i)
  else none

def readMultibyte (arrayLen i ch numTrailBytes : ℕ) :
    Option (Option (ℕ × ℕ)) :=
  (readTrailBytes utf8Array arrayLen (numTrailBytes - 1) (i + 1) ch false).map fun read =>
    read.bind fun p => checkSequence numTrailBytes p.1 p.2

/-- What `IsValid` and `Decode` do for the sequence at `i`: the character and its length, or `none`
if it is malformed. -/
def readSequence (arrayLen i : ℕ) : Option (Option (ℕ × ℕ)) :=
  utf8Array[i]?.bind fun codeUnit =>
    if 0x80 ≤ codeUnit.toNat then
      readMultibyte utf8Array arrayLen i codeUnit.toNat (kTrailBytes.getD codeUnit.toNat 0)
    else some (some (codeUnit.toNat, 1))

/-- The loop of `IsValid`. -/
def isValidFrom (arrayLen : ℕ) : ℕ → ℕ → Option Bool
  | 0, _ => none
  | fuel + 1, i =>
    if i < arrayLen then
      (readSequence utf8Array arrayLen i).bind fun
        | none => some false
        | some (_, j) => isValidFrom arrayLen fuel (i + j)
    else some true

def isValid (arrayLen : ℕ) : Option Bool :=
  isValidFrom utf8Array arrayLen (arrayLen + 1) 0

/-- `Length` of a code point. -/
def charLength (ch : ℕ) : ℕ :=
  if ch ≤ kMaxOneByteChar then 1
  else if ch ≤ kMaxTwoByteChar then 2
  else if ch ≤ kMaxThreeByteChar then 3
  else 4

/-- `Length` of a string. -/
def length (str : List UInt16) : ℕ :=
  (CodePointIterator.start.toList str str.length).foldl (fun length ch => length + charLength ch) 0

/-- `~(1 << 6)` -/
def kMask : ℕ := 0xFFFFFFBF

/-- The bytes that `Encode` stores for a code point. -/
def encodeChar (ch : ℕ) : List UInt8 :=
  if ch ≤ kMaxOneByteChar then [.ofNat ch]
  else if ch ≤ kMaxTwoByteChar then [.ofNat (0xC0 ||| ch >>> 6), .ofNat (0x80 ||| (ch &&& kMask))]
  else if ch ≤ kMaxThreeByteChar then
    [.ofNat (0xE0 ||| ch >>> 12), .ofNat (0x80 ||| (ch >>> 6 &&& kMask)),
      .ofNat (0x80 ||| (ch &&& kMask))]
  else
    [.ofNat (0xF0 ||| ch >>> 18), .ofNat (0x80 ||| (ch >>> 12 &&& kMask)),
      .ofNat (0x80 ||| (ch >>> 6 &&& kMask)), .ofNat (0x80 ||| (ch &&& kMask))]

/-- The loop of `Encode`. -/
def encodeFrom (len : ℕ) : List ℕ → ℕ → List UInt8 → Option (ℕ × List UInt8)
  | [], pos, dst => some (pos, dst)
  | ch :: chs, pos, dst =>
    let numBytes := charLength ch
    if len < pos + numBytes then some (pos, dst)
    else (writeAll dst pos (encodeChar ch)).bind fun dst => encodeFrom len chs (pos + numBytes) dst

/-- `Encode` of a string: the number of bytes, and the buffer. -/
def encode (src : List UInt16) (dst : List UInt8) (len : ℕ) : Option (ℕ × List UInt8) :=
  encodeFrom len (CodePointIterator.start.toList src src.length) 0 dst

/-- The character, which is `-1` for a malformed sequence, and its length. -/
def decodeResult : Option (ℕ × ℕ) → ℤ × ℕ
  | none => (-1, 0)
  | some (ch, i) => (ch, i)

def decode (arrayLen : ℕ) : Option (ℤ × ℕ) :=
  (readSequence utf8Array arrayLen 0).map decodeResult

section

variable {α : Type} (put : UInt8 → ℕ → List α)

/-- The loop of `DecodeToLatin1` and `DecodeToUTF16`; `put` gives what is stored for the first byte
of a sequence and its character. -/
def decodeFrom (utf8Array : List UInt8) (arrayLen len : ℕ) :
    ℕ → ℕ → ℕ → List α → Option (Bool × List α)
  | 0, _, _, _ => none
  | fuel + 1, i, j, dst =>
    if i < arrayLen ∧ j < len then
      utf8Array[i]?.bind fun codeUnit =>
        (decode (utf8Array.drop i) (arrayLen - i)).bind fun p =>
          if p.1 = -1 then some (false, dst)
          else
            let units := put codeUnit p.1.toNat
            (writeAll dst j units).bind fun dst =>
              decodeFrom utf8Array arrayLen len fuel (i + p.2) (j + units.length) dst
    else some (!decide (i < arrayLen ∧ j = len), dst)

end

def decodeToLatin1 (arrayLen : ℕ) (dst : List UInt8) (len : ℕ) :
    Option (Bool × List UInt8) :=
  decodeFrom (fun _ ch => [.ofNat ch]) utf8Array arrayLen len (arrayLen + 1) 0 0 dst

def decodeToUTF16 (arrayLen : ℕ) (dst : List UInt16) (len : ℕ) :
    Option (Bool × List UInt16) :=
  decodeFrom (fun codeUnit ch =>
      if isSupplementarySequenceStart codeUnit then Utf16.encode ch else [.ofNat ch])
    utf8Array arrayLen len (arrayLen + 1) 0 0 dst

end Utf8

end Model

end DartSdk.Vm
