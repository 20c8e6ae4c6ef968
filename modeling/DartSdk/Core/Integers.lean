import Mathlib.Data.List.Forall2
import Mathlib.Data.List.GetD
import Mathlib.Data.Nat.Digits.Defs

/-!
# `int.parse` (`integers_patch.dart`)

The VM's `int.parse` first tries to read a short decimal literal without trimming it; otherwise it finds
the ends of the text that are not whitespace, its sign and its radix, and reads the digits in blocks whose
values are Smis.  A string is the list of its code units with its representation.

* `limits_spec`: the table of the block sizes and their multipliers is right for every radix;
* `parseRadix_eq`: the blocks give the value of all the digits;
* **`parse_iff`**: `parse` gives a value if and only if the trimmed text denotes it.
-/

namespace DartSdk.Core

open List Option

/-- A string of the VM.  The code units of a one-byte string are less than 256. -/
structure DartString where
  codeUnits : List ℕ
  isOneByte : Bool
  lt_of_isOneByte : isOneByte = true → ∀ c ∈ codeUnits, c < 256

open DartString

namespace DartString

def isOneByteWhitespace (codeUnit : ℕ) : Bool :=
  if codeUnit ≤ 32 then codeUnit = 32 ∨ codeUnit ≤ 13 ∧ codeUnit ≥ 9
  else codeUnit = 0x85 ∨ codeUnit = 0xA0

def isTwoByteWhitespace (codeUnit : ℕ) : Bool :=
  if codeUnit ≤ 32 then codeUnit = 32 ∨ codeUnit ≤ 13 ∧ codeUnit ≥ 9
  else if codeUnit < 0x85 then false
  else if codeUnit = 0x85 ∨ codeUnit = 0xA0 then true
  else if codeUnit ≤ 0x200A then codeUnit = 0x1680 ∨ codeUnit = 0x180E ∨ 0x2000 ≤ codeUnit
  else
    codeUnit = 0x2028 ∨ codeUnit = 0x2029 ∨ codeUnit = 0x202F ∨ codeUnit = 0x205F ∨
      codeUnit = 0x3000 ∨ codeUnit = 0xFEFF

variable (s : DartString)

def isWhitespace (codeUnit : ℕ) : Bool :=
  if s.isOneByte then isOneByteWhitespace codeUnit else isTwoByteWhitespace codeUnit

def length : ℕ := s.codeUnits.length

def codeUnitAt (index : ℕ) : ℕ := s.codeUnits.getD index 0

/-- The code units from `start` up to `stop`. -/
def slice (start stop : ℕ) : List ℕ := (s.codeUnits.take stop).drop start

def firstNonWhitespace : ℕ := s.codeUnits.findIdx fun codeUnit => !s.isWhitespace codeUnit

/-- The loop of `_lastNonWhitespace`, with `last + 1`. -/
def lastNonWhitespaceFrom : ℕ → ℤ
  | 0 => -1
  | last + 1 => if s.isWhitespace (s.codeUnitAt last) then lastNonWhitespaceFrom last else last

def lastNonWhitespace : ℤ := s.lastNonWhitespaceFrom s.length

end DartString

/-- What `int.parse` does: it returns, it returns what `onError` returns, or it throws. -/
inductive ParseOutcome
  | value (result : ℤ)
  | onError (result : ℤ)
  | formatException (message : String) (index : Option ℕ)
  | rangeError (message : String)
  deriving DecidableEq

/-- For every radix from 2 on: how many digits fit in a Smi and the power of the radix, for 32 bits and
for 64 bits. -/
def PARSE_LIMITS : List ℕ :=
  [30, 1073741824,  62, 4611686018427387904,
   18,  387420489,  39, 4052555153018976267,
   15, 1073741824,  30, 1152921504606846976,
   12,  244140625,  26, 1490116119384765625,
   11,  362797056,  23,  789730223053602816,
   10,  282475249,  22, 3909821048582988049,
   10, 1073741824,  20, 1152921504606846976,
    9,  387420489,  19, 1350851717672992089,
    9, 1000000000,  18, 1000000000000000000,
    8,  214358881,  17,  505447028499293771,
    8,  429981696,  17, 2218611106740436992,
    8,  815730721,  16,  665416609183179841,
    7,  105413504,  16, 2177953337809371136,
    7,  170859375,  15,  437893890380859375,
    7,  268435456,  15, 1152921504606846976,
    7,  410338673,  15, 2862423051509815793,
    7,  612220032,  14,  374813367582081024,
    7,  893871739,  14,  799006685782884121,
    6,   64000000,  14, 1638400000000000000,
    6,   85766121,  14, 3243919932521508681,
    6,  113379904,  13,  282810057883082752,
    6,  148035889,  13,  504036361936467383,
    6,  191102976,  13,  876488338465357824,
    6,  244140625,  13, 1490116119384765625,
    6,  308915776,  13, 2481152873203736576,
    6,  387420489,  13, 4052555153018976267,
    6,  481890304,  12,  232218265089212416,
    6,  594823321,  12,  353814783205469041,
    6,  729000000,  12,  531441000000000000,
    6,  887503681,  12,  787662783788549761,
    6, 1073741824,  12, 1152921504606846976,
    5,   39135393,  12, 1667889514952984961,
    5,   45435424,  12, 2386420683693101056,
    5,   52521875,  12, 3379220508056640625,
    5,   60466176,  11,  131621703842267136]

/-- The digits of `_tryParseSmi`, from `ix` to `last`. -/
def tryParseDigits (is64Bit : Bool) (str : DartString) (ix last : ℕ) (sign : ℤ) : Option ℤ :=
  let smiLimit := if is64Bit then 18 else 9
  if last - ix ≥ smiLimit then none
  else do
    let result ← (str.slice ix (last + 1)).foldlM (fun result codeUnit =>
      let c := 0x30 ^^^ codeUnit
      if 9 < c then none else some (10 * result + c)) 0
    return sign * (result : ℕ)

def tryParseSmi (is64Bit : Bool) (str : DartString) (first last : ℕ) : Option ℤ :=
  let c := str.codeUnitAt first
  if c = 0x2b ∨ c = 0x2d then
    let ix := first + 1
    let sign : ℤ := 0x2c - c
    if ix > last then none else tryParseDigits is64Bit str ix last sign
  else tryParseDigits is64Bit str first last 1

def decimalDigit (radix codeUnit : ℕ) : Option ℕ :=
  let digit := codeUnit ^^^ 0x30
  if digit ≥ radix then none else some digit

def letterDigit (radix char : ℕ) : Option ℕ :=
  let digit := char ^^^ 0x30
  if digit > 9 then
    let digit : ℤ := (char ||| 0x20 : ℕ) - (0x61 - 10)
    if digit < 10 ∨ digit ≥ radix then none else some digit.toNat
  else some digit

/-- A digit of `_parseBlock`, in which the two loops differ. -/
def blockDigit (radix codeUnit : ℕ) : Option ℕ :=
  if radix ≤ 10 then decimalDigit radix codeUnit else letterDigit radix codeUnit

/-- The loops of `_parseBlock`, over the code units of the block. -/
def parseBlock (radix : ℕ) (block : List ℕ) : Option ℕ :=
  block.foldlM (fun result codeUnit => (blockDigit radix codeUnit).map (radix * result + ·)) 0

/-- `while (smallBlockSize >= blockSize) smallBlockSize -= blockSize;`  No block size is 0. -/
def reduceBlockSize (blockSize smallBlockSize : ℕ) : ℕ :=
  if 0 < blockSize ∧ smallBlockSize ≥ blockSize then reduceBlockSize blockSize (smallBlockSize - blockSize)
  else smallBlockSize
  termination_by smallBlockSize

/-- The loop over the whole blocks.  No block size is 0. -/
def parseBlocks (source : DartString) (radix blockSize multiplier : ℕ) (sign : ℤ) (stop start : ℕ)
    (result : ℤ) : Option ℤ :=
  let blockEnd := start + blockSize
  match parseBlock radix (source.slice start blockEnd) with
  | none => none
  | some smi =>
    let result := result * multiplier + sign * smi
    if 0 < blockSize ∧ blockEnd + blockSize ≤ stop then
      parseBlocks source radix blockSize multiplier sign stop blockEnd result
    else some result
  termination_by stop - start

def parseRadix (is64Bit : Bool) (source : DartString) (radix start stop : ℕ) (sign : ℤ) : Option ℤ :=
  let tableIndex := (radix - 2) * 4 + if is64Bit then 2 else 0
  let blockSize := PARSE_LIMITS.getD tableIndex 0
  let length := stop - start
  if length ≤ blockSize then (parseBlock radix (source.slice start stop)).map fun smi : ℕ => sign * smi
  else
    let smallBlockSize := reduceBlockSize blockSize length
    let multiplier := PARSE_LIMITS.getD (tableIndex + 1) 0
    if smallBlockSize > 0 then
      let blockEnd := start + smallBlockSize
      match parseBlock radix (source.slice start blockEnd) with
      | none => none
      | some smi => parseBlocks source radix blockSize multiplier sign stop blockEnd (sign * smi)
    else parseBlocks source radix blockSize multiplier sign stop start 0

section Parse

variable (is64Bit : Bool) (source : DartString)

variable (onError : Option (DartString → ℤ)) (radix : Option ℕ)

def throwFormatException (index radix : Option ℕ) : ParseOutcome :=
  match onError with
  | some onError => .onError (onError source)
  | none =>
    match radix with
    | none => .formatException "Invalid number" index
    | some radix => .formatException ("Invalid radix-" ++ toString radix ++ " number") index

/-- The end of `_parse`: the digits, once the radix is known. -/
def parseDigits (radix start stop : ℕ) (sign : ℤ) (shownRadix : Option ℕ) : ParseOutcome :=
  match parseRadix is64Bit source radix start stop sign with
  | none => throwFormatException source onError none shownRadix
  | some result => .value result

/-- `_parse` from the point where the sign is known. -/
def parseUnsigned (start stop : ℕ) (sign : ℤ) : ParseOutcome :=
  match radix with
  | some radix => parseDigits is64Bit source onError radix start stop sign (some radix)
  | none =>
    if source.codeUnitAt start = 0x30 then
      let index := start + 1
      if index = stop then .value 0
      else if source.codeUnitAt index ||| 0x20 = 0x78 then
        let index := index + 1
        if index = stop then throwFormatException source onError (some index) none
        else parseDigits is64Bit source onError 16 index stop sign none
      else parseDigits is64Bit source onError 10 start stop sign (some 10)
    else parseDigits is64Bit source onError 10 start stop sign (some 10)

/-- `int._parse` -/
def parseTrimmed : ParseOutcome :=
  let stop := (source.lastNonWhitespace + 1).toNat
  if stop = 0 then throwFormatException source onError (some source.length) radix
  else
    let start := source.firstNonWhitespace
    let first := source.codeUnitAt start
    if first = 0x2b ∨ first = 0x2d then
      let sign : ℤ := 0x2c - first
      let start := start + 1
      if start = stop then throwFormatException source onError (some stop) radix
      else parseUnsigned is64Bit source onError radix start stop sign
    else parseUnsigned is64Bit source onError radix start stop 1

def parse : ParseOutcome :=
  if source.codeUnits = [] then throwFormatException source onError (some 0) radix
  else
    match radix with
    | none =>
      match tryParseSmi is64Bit source 0 (source.length - 1) with
      | some result => .value result
      | none => parseTrimmed is64Bit source onError none
    | some radix =>
      if radix = 10 then
        match tryParseSmi is64Bit source 0 (source.length - 1) with
        | some result => .value result
        | none => parseTrimmed is64Bit source onError (some radix)
      else if radix < 2 ∨ radix > 36 then
        .rangeError ("Radix " ++ toString radix ++ " not in range 2..36")
      else parseTrimmed is64Bit source onError (some radix)

end Parse

section Grammar

/-- The characters with the property White_Space, and the byte order mark. -/
def IsWhitespace (c : ℕ) : Prop :=
  9 ≤ c ∧ c ≤ 13 ∨ c = 0x20 ∨ c = 0x85 ∨ c = 0xA0 ∨ c = 0x1680 ∨ c = 0x180E ∨
    0x2000 ≤ c ∧ c ≤ 0x200A ∨ c = 0x2028 ∨ c = 0x2029 ∨ c = 0x202F ∨ c = 0x205F ∨ c = 0x3000 ∨ c = 0xFEFF

/-- The text without the whitespace at its ends. -/
def Trims (text body : List ℕ) : Prop :=
  ∃ before after, text = before ++ body ++ after ∧ (∀ c ∈ before, IsWhitespace c) ∧
    (∀ c ∈ after, IsWhitespace c) ∧ (∀ c ∈ body.head?, ¬IsWhitespace c) ∧
    ∀ c ∈ body.getLast?, ¬IsWhitespace c

def DigitValue (c digit : ℕ) : Prop :=
  0x30 ≤ c ∧ c ≤ 0x39 ∧ digit = c - 0x30 ∨ 0x41 ≤ c ∧ c ≤ 0x5A ∧ digit = c - 0x41 + 10 ∨
    0x61 ≤ c ∧ c ≤ 0x7A ∧ digit = c - 0x61 + 10

/-- The characters are digits of the radix, with these values. -/
def Digits (radix : ℕ) : List ℕ → List ℕ → Prop :=
  List.Forall₂ fun c digit => DigitValue c digit ∧ digit < radix

def Numeral (radix : ℕ) (text : List ℕ) (n : ℕ) : Prop :=
  text ≠ [] ∧ ∃ digits, Digits radix text digits ∧ n = Nat.ofDigits radix digits.reverse

def Magnitude (radix : Option ℕ) (text : List ℕ) (n : ℕ) : Prop :=
  match radix with
  | some radix => Numeral radix text n
  | none => Numeral 10 text n ∨
      ∃ x rest, (x = 0x78 ∨ x = 0x58) ∧ text = 0x30 :: x :: rest ∧ Numeral 16 rest n

def Denotes (radix : Option ℕ) (body : List ℕ) (v : ℤ) : Prop :=
  ∃ n : ℕ, Magnitude radix body n ∧ v = n ∨
    (∃ rest, body = 0x2B :: rest ∧ Magnitude radix rest n ∧ v = n) ∨
    ∃ rest, body = 0x2D :: rest ∧ Magnitude radix rest n ∧ v = -n

end Grammar

variable {c : ℕ} {text : List ℕ} {source : DartString}

section Blocks

variable {radix digit : ℕ}

/-- **The table is right**, and the values of the blocks are Smis. -/
theorem limits_spec : ∀ radix < 37, 2 ≤ radix → ∀ is64Bit : Bool,
    let tableIndex := (radix - 2) * 4 + if is64Bit then 2 else 0
    let blockSize := PARSE_LIMITS.getD tableIndex 0
    0 < blockSize ∧ PARSE_LIMITS.getD (tableIndex + 1) 0 = radix ^ blockSize ∧
      radix ^ blockSize ≤ 2 ^ if is64Bit then 62 else 30 := by
  decide +kernel

theorem xor_eq_digit {n : ℕ} (h : n < 10) : c ^^^ 0x30 = n ↔ c = 0x30 + n := by
  have hx : ∀ n < 10, n ^^^ 0x30 = 0x30 + n := by decide
  constructor
  · rintro rfl
    rw [← hx _ h, Nat.xor_assoc, Nat.xor_self, Nat.xor_zero]
  · rintro rfl
    rw [← hx n h, Nat.xor_assoc, Nat.xor_self, Nat.xor_zero]

theorem decimalDigit_iff (hrd : radix ≤ 10) :
    decimalDigit radix c = some digit ↔ DigitValue c digit ∧ digit < radix := by
  unfold decimalDigit DigitValue
  dsimp only
  constructor
  · intro h
    split_ifs at h with hge
    cases h
    have heq := (xor_eq_digit (show c ^^^ 0x30 < 10 by omega)).mp rfl
    omega
  · rintro ⟨hdg, hlt⟩
    have hd : c = 0x30 + digit := by omega
    rw [(xor_eq_digit (by omega)).mpr hd, if_neg (by omega)]

theorem or_letter (c : ℕ) : 0x41 ≤ c ∧ c ≤ 0x5A ∧ c ||| 0x20 = c + 0x20 ∨
    0x61 ≤ c ∧ c ≤ 0x7A ∧ c ||| 0x20 = c ∨
    ¬(0x41 ≤ c ∧ c ≤ 0x5A ∨ 0x61 ≤ c ∧ c ≤ 0x7A ∨ 0x61 ≤ c ||| 0x20 ∧ c ||| 0x20 ≤ 0x7A) := by
  by_cases hc : c < 128
  · revert c
    decide
  · have hle : c ≤ c ||| 0x20 := Nat.left_le_or
    omega

theorem letterDigit_iff (hrd : 10 < radix) (hle : radix ≤ 36) :
    letterDigit radix c = some digit ↔ DigitValue c digit ∧ digit < radix := by
  unfold letterDigit
  dsimp only
  by_cases hd : c ^^^ 0x30 > 9
  · rw [if_pos hd]
    have hn : ¬(0x30 ≤ c ∧ c ≤ 0x39) := by
      intro hc
      have := (xor_eq_digit (c := c) (n := c - 0x30) (by omega)).mpr (by omega)
      omega
    have hl := or_letter c
    unfold DigitValue
    constructor
    · intro h
      split_ifs at h with hr
      have hd := some.inj h
      omega
    · rintro ⟨hv, hlt⟩
      rw [if_neg (by omega)]
      exact congrArg some (by omega)
  · rw [if_neg hd]
    have heq := (xor_eq_digit (show c ^^^ 0x30 < 10 by omega)).mp rfl
    unfold DigitValue
    rw [some.injEq]
    omega

/-- The loops over the digits: a digit is read and added to the value of what came before it. -/
def readDigits (radix : ℕ) (read : ℕ → Option ℕ) (result : ℕ) (text : List ℕ) : Option ℕ :=
  text.foldlM (fun result c => (read c).map (radix * result + ·)) result

variable {read : ℕ → Option ℕ}

theorem readDigits_eq (result : ℕ) (text : List ℕ) :
    readDigits radix read result text =
      (readDigits radix read 0 text).map (result * radix ^ text.length + ·) := by
  induction text generalizing result with
  | nil => simp [readDigits]
  | cons c text ih =>
    have hc : ∀ result, readDigits radix read result (c :: text) =
        (read c).bind fun digit => readDigits radix read (radix * result + digit) text := by
      intro result
      unfold readDigits
      rw [foldlM_cons]
      cases read c <;> rfl
    rw [hc, hc]
    cases read c with
    | none => rfl
    | some digit =>
      show readDigits radix read (radix * result + digit) text =
        (readDigits radix read (radix * 0 + digit) text).map _
      rw [ih, ih (radix * 0 + digit), Option.map_map]
      congr 1
      funext n
      show (radix * result + digit) * radix ^ text.length + n =
        result * radix ^ (text.length + 1) + ((radix * 0 + digit) * radix ^ text.length + n)
      ring

theorem readDigits_append (text rest : List ℕ) :
    readDigits radix read 0 (text ++ rest) = (readDigits radix read 0 text).bind fun n =>
      (readDigits radix read 0 rest).map (n * radix ^ rest.length + ·) := by
  unfold readDigits
  rw [foldlM_append]
  congr 1
  funext n
  exact readDigits_eq n rest

/-- **The digits are read if and only if all of them are digits of the radix.** -/
theorem readDigits_iff (hre : ∀ c digit, read c = some digit ↔ DigitValue c digit ∧ digit < radix)
    {text : List ℕ} {n : ℕ} : readDigits radix read 0 text = some n ↔
      ∃ digits, Digits radix text digits ∧ n = Nat.ofDigits radix digits.reverse := by
  induction text generalizing n with
  | nil =>
    refine ⟨fun h => ⟨[], .nil, (some.inj h).symm⟩, ?_⟩
    rintro ⟨digits, hd, rfl⟩
    cases hd
    rfl
  | cons c text ih =>
    have ho : readDigits radix read 0 [c] = read c := by
      unfold readDigits
      rw [foldlM_cons]
      cases read c <;> simp
    rw [show c :: text = [c] ++ text from rfl, readDigits_append, ho, bind_eq_some_iff]
    constructor
    · rintro ⟨digit, hdg, hr⟩
      obtain ⟨m, hm, rfl⟩ := map_eq_some_iff.mp hr
      obtain ⟨digits, hd, rfl⟩ := ih.mp hm
      refine ⟨digit :: digits, .cons ((hre c digit).mp hdg) hd, ?_⟩
      rw [reverse_cons, Nat.ofDigits_append, length_reverse, hd.length_eq,
        Nat.ofDigits_singleton]
      ring
    · rintro ⟨digits, hd, rfl⟩
      obtain ⟨digit, rest, hdg, hr, rfl⟩ := forall₂_cons_left_iff.mp hd
      refine ⟨digit, (hre c digit).mpr hdg, map_eq_some_iff.mpr ⟨_, ih.mpr ⟨rest, hr, rfl⟩, ?_⟩⟩
      rw [reverse_cons, Nat.ofDigits_append, length_reverse, ← hr.length_eq,
        Nat.ofDigits_singleton]
      show digit * radix ^ text.length + _ = _ + radix ^ text.length * digit
      ring

theorem blockDigit_iff (hrd : radix ≤ 36) (c digit : ℕ) :
    blockDigit radix c = some digit ↔ DigitValue c digit ∧ digit < radix := by
  unfold blockDigit
  split_ifs with hle
  · exact decimalDigit_iff hle
  · exact letterDigit_iff (by omega) hrd

theorem parseBlock_append (text rest : List ℕ) :
    parseBlock radix (text ++ rest) = (parseBlock radix text).bind fun n =>
      (parseBlock radix rest).map (n * radix ^ rest.length + ·) :=
  readDigits_append text rest

theorem reduceBlockSize_eq {blockSize : ℕ} (h : 0 < blockSize) (length : ℕ) :
    reduceBlockSize blockSize length = length % blockSize := by
  induction length using Nat.strong_induction_on with
  | _ length ih =>
    unfold reduceBlockSize
    split_ifs with hge
    · rw [ih (length - blockSize) (by omega), ← Nat.mod_eq_sub_mod hge.2]
    · exact (Nat.mod_eq_of_lt (by omega)).symm

theorem slice_append (source : DartString) {start middle stop : ℕ} (h : start ≤ middle) (h' : middle ≤ stop) :
    source.slice start stop = source.slice start middle ++ source.slice middle stop := by
  unfold DartString.slice
  obtain ⟨i, rfl⟩ := Nat.exists_eq_add_of_le h
  obtain ⟨j, rfl⟩ := Nat.exists_eq_add_of_le h'
  rw [drop_take, drop_take, drop_take, add_assoc start i j, Nat.add_sub_cancel_left,
    Nat.add_sub_cancel_left, ← add_assoc, Nat.add_sub_cancel_left, take_add, drop_drop]

theorem length_slice {start stop : ℕ} (h : stop ≤ source.length) :
    (source.slice start stop).length = stop - start := by
  unfold DartString.slice
  rw [length_drop, length_take, Nat.min_eq_left (show stop ≤ source.codeUnits.length from h)]

theorem parseBlocks_eq {blockSize stop : ℕ} (hp : 0 < blockSize) (sign : ℤ)
    (hst : stop ≤ source.length) (count start : ℕ) (result : ℤ)
    (hc : start + (count + 1) * blockSize = stop) :
    parseBlocks source radix blockSize (radix ^ blockSize) sign stop start result =
      (parseBlock radix (source.slice start stop)).map fun n : ℕ =>
        result * radix ^ (stop - start) + sign * n := by
  induction count generalizing start result with
  | zero =>
    have he : start + blockSize = stop := by omega
    unfold parseBlocks
    dsimp only
    rw [he]
    cases parseBlock radix (source.slice start stop) with
    | none => rfl
    | some smi =>
      dsimp only
      rw [if_neg (by omega), ← he, Nat.add_sub_cancel_left]
      push_cast
      rfl
  | succ count ih =>
    have hm : (count + 1 + 1) * blockSize = (count + 1) * blockSize + blockSize := by ring
    have hle : start + blockSize + blockSize ≤ stop := by
      have : blockSize ≤ (count + 1) * blockSize := Nat.le_mul_of_pos_left _ (by omega)
      omega
    have hs := slice_append source (Nat.le_add_right start blockSize)
      (show start + blockSize ≤ stop by omega)
    unfold parseBlocks
    dsimp only
    rw [hs, parseBlock_append, length_slice hst]
    cases parseBlock radix (source.slice start (start + blockSize)) with
    | none => rfl
    | some smi =>
      dsimp only
      rw [if_pos ⟨hp, hle⟩, ih (start + blockSize) _ (by omega), bind_some, Option.map_map]
      congr 1
      funext n
      have hpw : stop - start = blockSize + (stop - (start + blockSize)) := by omega
      show _ = result * (radix : ℤ) ^ (stop - start) + sign * (((smi * radix ^ (stop - (start + blockSize)) + n : ℕ)) : ℤ)
      rw [hpw, pow_add]
      push_cast
      ring

section

variable {is64Bit : Bool} (hrd : 2 ≤ radix) (hrd' : radix ≤ 36) {start stop : ℕ}
  (hst : stop ≤ source.length)

include hrd hrd' hst

theorem parseRadix_eq (sign : ℤ) : parseRadix is64Bit source radix start stop sign =
      (parseBlock radix (source.slice start stop)).map fun n : ℕ => sign * n := by
  obtain ⟨hp, hm, -⟩ := limits_spec radix (by omega) hrd is64Bit
  unfold parseRadix
  dsimp only
  rw [hm]
  set blockSize := PARSE_LIMITS.getD ((radix - 2) * 4 + if is64Bit then 2 else 0) 0
  by_cases hshort : stop - start ≤ blockSize
  · rw [if_pos hshort]
  rw [if_neg hshort, reduceBlockSize_eq hp]
  have hd : (stop - start) / blockSize * blockSize + (stop - start) % blockSize = stop - start :=
    Nat.div_add_mod' _ _
  have hmd : (stop - start) % blockSize < blockSize := Nat.mod_lt _ hp
  obtain ⟨count, hcount⟩ : ∃ count, (stop - start) / blockSize = count + 1 :=
    ⟨(stop - start) / blockSize - 1, by have := Nat.div_pos (show blockSize ≤ stop - start by omega) hp; omega⟩
  rw [hcount] at hd
  have hb : start + (stop - start) % blockSize + (count + 1) * blockSize = stop := by omega
  split_ifs with hsm
  · have hs := slice_append source (Nat.le_add_right start ((stop - start) % blockSize))
      (show start + (stop - start) % blockSize ≤ stop by omega)
    rw [hs, parseBlock_append, length_slice hst]
    cases parseBlock radix (source.slice start (start + (stop - start) % blockSize)) with
    | none => rfl
    | some smi =>
      dsimp only
      rw [parseBlocks_eq hp sign hst count _ _ hb, bind_some, Option.map_map]
      congr 1
      funext n
      show _ = sign * (((smi * radix ^ (stop - (start + (stop - start) % blockSize)) + n : ℕ)) : ℤ)
      push_cast
      ring
  · rw [parseBlocks_eq hp sign hst count start 0 (by omega)]
    simp

theorem parseRadix_iff (hlt : start < stop) (sign v : ℤ) :
    parseRadix is64Bit source radix start stop sign = some v ↔
      ∃ n : ℕ, Numeral radix (source.slice start stop) n ∧ v = sign * n := by
  have hne : source.slice start stop ≠ [] := by
    rw [← length_pos_iff, length_slice hst]
    omega
  rw [parseRadix_eq hrd hrd' hst, map_eq_some_iff]
  constructor
  · rintro ⟨n, hn, rfl⟩
    exact ⟨n, ⟨hne, (readDigits_iff (blockDigit_iff hrd')).mp hn⟩, rfl⟩
  · rintro ⟨n, ⟨-, hn⟩, rfl⟩
    exact ⟨n, (readDigits_iff (blockDigit_iff hrd')).mpr hn, rfl⟩

end

end Blocks

section Trimming

variable {body : List ℕ}

theorem isWhitespace_iff {c : ℕ} (hc : c ∈ source.codeUnits) :
    source.isWhitespace c ↔ IsWhitespace c := by
  have hb := fun h => source.lt_of_isOneByte h c hc
  unfold isWhitespace isOneByteWhitespace isTwoByteWhitespace IsWhitespace
  split_ifs with h1 h2 h3 h4 h5 h6
  all_goals simp only [decide_eq_true_eq, false_iff, true_iff]
  · omega
  · have := hb h1
    omega
  all_goals omega

theorem exists_last (text : List ℕ) : (∀ c ∈ text, IsWhitespace c) ∨
    ∃ front last after, text = front ++ last :: after ∧ ¬IsWhitespace last ∧ ∀ c ∈ after, IsWhitespace c := by
  induction text with
  | nil => exact .inl nofun
  | cons c text ih =>
    rcases ih with ha | ⟨front, last, after, rfl, hlast, hafter⟩
    · by_cases hc : IsWhitespace c
      · exact .inl (forall_mem_cons.mpr ⟨hc, ha⟩)
      · exact .inr ⟨[], c, text, rfl, hc, ha⟩
    · exact .inr ⟨c :: front, last, after, rfl, hlast, hafter⟩

theorem exists_trims (text : List ℕ) : (∀ c ∈ text, IsWhitespace c) ∨
    ∃ body, body ≠ [] ∧ Trims text body := by
  induction text with
  | nil => exact .inl nofun
  | cons c text ih =>
    by_cases hc : IsWhitespace c
    · rcases ih with ha | ⟨body, hne, before, after, rfl, hb, hafter, hh, hlast⟩
      · exact .inl (forall_mem_cons.mpr ⟨hc, ha⟩)
      · exact .inr ⟨body, hne, c :: before, after, rfl, forall_mem_cons.mpr ⟨hc, hb⟩, hafter,
          hh, hlast⟩
    rcases exists_last (c :: text) with ha | ⟨front, last, after, heq, hlast, hafter⟩
    · exact absurd (ha c mem_cons_self) hc
    have hh : (front ++ [last]).head? = some c := by
      rw [show some c = (front ++ last :: after).head? from congrArg head? heq]
      cases front <;> rfl
    refine .inr ⟨front ++ [last], by simp, [], after, by simp [heq], nofun, hafter, ?_, ?_⟩
    · rw [hh]
      rintro _ ⟨⟩
      exact hc
    · rw [getLast?_concat]
      rintro _ ⟨⟩
      exact hlast

theorem firstNonWhitespace_eq {before rest : List ℕ} {c : ℕ}
    (hs : source.codeUnits = before ++ c :: rest) (hb : ∀ c ∈ before, IsWhitespace c)
    (hc : ¬IsWhitespace c) : source.firstNonWhitespace = before.length := by
  have ha : ∀ c ∈ before, (!source.isWhitespace c) = false := by
    intro c hc
    rw [(isWhitespace_iff (by rw [hs]; exact mem_append_left _ hc)).mpr (hb c hc)]
    rfl
  have hf : (!source.isWhitespace c) = true := by
    rw [Bool.not_eq_true', ← Bool.not_eq_true, isWhitespace_iff (by rw [hs]; simp)]
    exact hc
  unfold firstNonWhitespace
  rw [hs, findIdx_append, findIdx_eq_length_of_false ha, if_neg (lt_irrefl _),
    findIdx_cons, hf]
  simp

theorem codeUnitAt_mem {i : ℕ} (h : i < source.length) : source.codeUnitAt i ∈ source.codeUnits := by
  unfold codeUnitAt
  rw [getD_eq_getElem _ _ h]
  exact getElem_mem _

theorem lastNonWhitespaceFrom_eq {k n : ℕ} (hkn : k ≤ n) (hn : n ≤ source.length)
    (ha : ∀ i, k ≤ i → i < n → IsWhitespace (source.codeUnitAt i)) :
    source.lastNonWhitespaceFrom n = source.lastNonWhitespaceFrom k := by
  induction n, hkn using Nat.le_induction with
  | base => rfl
  | succ n hkn ih =>
    have hw := (isWhitespace_iff (codeUnitAt_mem hn)).mpr (ha n hkn n.lt_succ_self)
    rw [lastNonWhitespaceFrom, if_pos hw]
    exact ih (by omega) fun i hki hi => ha i hki (by omega)

theorem lastNonWhitespace_eq {front after : List ℕ} {last : ℕ}
    (hs : source.codeUnits = front ++ last :: after) (hl : ¬IsWhitespace last)
    (ha : ∀ c ∈ after, IsWhitespace c) : source.lastNonWhitespace = front.length := by
  have hln : source.length = front.length + 1 + after.length := by
    unfold DartString.length
    rw [hs]
    simp
    omega
  have hat : source.codeUnitAt front.length = last := by
    unfold codeUnitAt
    rw [hs]
    simp
  unfold lastNonWhitespace
  rw [lastNonWhitespaceFrom_eq (k := front.length + 1) (by omega) le_rfl,
    lastNonWhitespaceFrom, hat, if_neg]
  · rw [isWhitespace_iff (by rw [hs]; simp)]
    exact hl
  · intro i hki hi
    obtain ⟨k, rfl⟩ := Nat.exists_eq_add_of_le hki
    have hk : k < after.length := by omega
    refine ha _ ?_
    unfold codeUnitAt
    rw [hs, show front ++ last :: after = (front ++ [last]) ++ after by simp,
      getD_append_right _ _ _ _ (by simp)]
    simp only [length_append, length_singleton, Nat.add_sub_cancel_left]
    rw [getD_eq_getElem _ _ hk]
    exact getElem_mem _

theorem lastNonWhitespace_of_all (ha : ∀ c ∈ source.codeUnits, IsWhitespace c) :
    source.lastNonWhitespace = -1 :=
  lastNonWhitespaceFrom_eq (Nat.zero_le _) le_rfl fun _ _ hi => ha _ (codeUnitAt_mem hi)

theorem Trims.bounds (h : Trims source.codeUnits body) (hne : body ≠ []) :
    source.slice source.firstNonWhitespace (source.lastNonWhitespace + 1).toNat = body ∧
      source.firstNonWhitespace + body.length = (source.lastNonWhitespace + 1).toNat ∧
      (source.lastNonWhitespace + 1).toNat ≤ source.length := by
  obtain ⟨before, after, hs, hb, ha, hh, hl⟩ := h
  obtain ⟨c, rest, rfl⟩ := exists_cons_of_ne_nil hne
  obtain ⟨init, last, hinit⟩ : ∃ init last, c :: rest = init ++ [last] :=
    ⟨_, _, (dropLast_concat_getLast hne).symm⟩
  have hf := firstNonWhitespace_eq
    (show source.codeUnits = before ++ c :: (rest ++ after) by rw [hs]; simp) hb (hh c rfl)
  have hl' := lastNonWhitespace_eq
    (show source.codeUnits = (before ++ init) ++ last :: after by rw [hs, hinit]; simp)
    (hl last (by rw [hinit]; simp)) ha
  have hln : (c :: rest).length = init.length + 1 := by rw [hinit]; simp
  have hst : (source.lastNonWhitespace + 1).toNat = before.length + (c :: rest).length := by
    rw [hl', length_append, hln]
    omega
  rw [hst, hf]
  refine ⟨?_, rfl, ?_⟩
  · unfold DartString.slice
    rw [hs, append_assoc, drop_take, drop_left, Nat.add_sub_cancel_left, take_left]
  · unfold DartString.length
    rw [hs]
    simp

end Trimming

section Literals

variable {is64Bit : Bool} {onError : Option (DartString → ℤ)} {radix : Option ℕ} {start stop : ℕ}
  {sign v : ℤ} {n : ℕ}

theorem throwFormatException_ne (index : Option ℕ) :
    throwFormatException source onError index radix ≠ .value v := by
  unfold throwFormatException
  split
  · exact nofun
  · split <;> exact nofun

theorem slice_cons (hlt : start < stop) (hst : stop ≤ source.length) :
    source.slice start stop = source.codeUnitAt start :: source.slice (start + 1) stop := by
  unfold DartString.slice codeUnitAt
  have hl : start < (source.codeUnits.take stop).length := by
    rw [length_take]
    unfold DartString.length at hst
    omega
  rw [drop_eq_getElem_cons hl, getElem_take, getD_eq_getElem]

theorem slice_self (start : ℕ) : source.slice start start = [] := by
  unfold DartString.slice
  rw [drop_eq_nil_iff, length_take]
  omega

theorem Numeral.head {r : ℕ} (h : Numeral r (c :: text) n) : ∃ digit, DigitValue c digit ∧ digit < r := by
  obtain ⟨-, _, hd, -⟩ := h
  obtain ⟨digit, _, hdg, -, -⟩ := forall₂_cons_left_iff.mp hd
  exact ⟨digit, hdg⟩

theorem Magnitude.ne_nil (h : Magnitude radix text n) : text ≠ [] := by
  unfold Magnitude at h
  split at h
  · exact h.1
  · rcases h with h | ⟨x, _, -, rfl, -⟩
    · exact h.1
    · simp

theorem Magnitude.head (h : Magnitude radix (c :: text) n) : 0x30 ≤ c := by
  have hd : ∀ {r : ℕ}, Numeral r (c :: text) n → 0x30 ≤ c := by
    intro r h
    obtain ⟨_, hd, -⟩ := h.head
    unfold DigitValue at hd
    omega
  unfold Magnitude at h
  split at h
  · exact hd h
  · rcases h with h | ⟨x, _, -, heq, -⟩
    · exact hd h
    · rw [(List.cons.inj heq).1]

theorem parseDigits_iff {r : ℕ} {shownRadix : Option ℕ} (hr : 2 ≤ r) (hr' : r ≤ 36)
    (hst : stop ≤ source.length) (hlt : start < stop) :
    parseDigits is64Bit source onError r start stop sign shownRadix = .value v ↔
      ∃ n : ℕ, Numeral r (source.slice start stop) n ∧ v = sign * n := by
  have hi : parseRadix is64Bit source r start stop sign = some v ↔ _ :=
    parseRadix_iff hr hr' hst hlt sign v
  rw [← hi]
  unfold parseDigits
  cases parseRadix is64Bit source r start stop sign with
  | none => exact ⟨fun h => absurd h (throwFormatException_ne none), nofun⟩
  | some _ => rw [ParseOutcome.value.injEq, some.injEq]

theorem or_eq_x : c ||| 0x20 = 0x78 ↔ c = 0x78 ∨ c = 0x58 := by
  have := or_letter c
  omega

/-- Without a radix, a literal is hexadecimal if its second character is an `x`. -/
theorem magnitude_none_iff (hx : ∀ x rest, text = 0x30 :: x :: rest → x ≠ 0x78 ∧ x ≠ 0x58) :
    Magnitude none text n ↔ Numeral 10 text n := by
  refine ⟨fun h => ?_, .inl⟩
  rcases h with h | ⟨x, rest, hxx, heq, -⟩
  · exact h
  · have := hx x rest heq
    omega

theorem magnitude_hex_iff (hx : c = 0x78 ∨ c = 0x58) :
    Magnitude none (0x30 :: c :: text) n ↔ Numeral 16 text n := by
  refine ⟨fun h => ?_, fun h => .inr ⟨c, text, hx, rfl, h⟩⟩
  rcases h with h | ⟨x, _, -, heq, h⟩
  · obtain ⟨-, _, hd, -⟩ := h
    obtain ⟨_, _, -, hr, -⟩ := forall₂_cons_left_iff.mp hd
    obtain ⟨_, _, ⟨hdg, hlt⟩, -, -⟩ := forall₂_cons_left_iff.mp hr
    unfold DigitValue at hdg
    omega
  · obtain ⟨-, hr⟩ := List.cons.inj heq
    rw [(List.cons.inj hr).2]
    exact h

/-- **A literal from the point where its sign is known.** -/
theorem parseUnsigned_iff (hrd : ∀ r ∈ radix, 2 ≤ r ∧ r ≤ 36) (hst : stop ≤ source.length)
    (hlt : start < stop) :
    parseUnsigned is64Bit source onError radix start stop sign = .value v ↔
      ∃ n : ℕ, Magnitude radix (source.slice start stop) n ∧ v = sign * n := by
  unfold parseUnsigned
  cases radix with
  | some r => exact parseDigits_iff (hrd r rfl).1 (hrd r rfl).2 hst hlt
  | none =>
    have hc := slice_cons hlt hst
    have hd : (∀ x rest, source.slice start stop = 0x30 :: x :: rest → x ≠ 0x78 ∧ x ≠ 0x58) →
        (parseDigits is64Bit source onError 10 start stop sign (some 10) = .value v ↔
          ∃ n : ℕ, Magnitude none (source.slice start stop) n ∧ v = sign * n) := by
      intro hx
      rw [parseDigits_iff (by decide) (by decide) hst hlt]
      exact exists_congr fun n => and_congr_left fun _ => (magnitude_none_iff hx).symm
    dsimp only
    split_ifs with hz he hx he'
    · -- The literal is `0`.
      have hs : source.slice start stop = [0x30] := by rw [hc, hz, he, slice_self]
      have hnm : Numeral 10 [0x30] 0 := ⟨by simp, [0], .cons ⟨.inl (by omega), by omega⟩ .nil, rfl⟩
      rw [hs]
      constructor
      · intro h
        cases h
        exact ⟨0, .inl hnm, by simp⟩
      · rintro ⟨n, hn, rfl⟩
        obtain ⟨-, digits, hdg, rfl⟩ := (magnitude_none_iff fun x rest heq => by simp at heq).mp hn
        obtain ⟨digit, rest, ⟨hdt, -⟩, hr, rfl⟩ := forall₂_cons_left_iff.mp hdg
        cases hr
        unfold DigitValue at hdt
        have : digit = 0 := by omega
        subst this
        simp
    · -- There are no digits after `0x`.
      have hs : source.slice start stop = [0x30, source.codeUnitAt (start + 1)] := by
        rw [hc, hz, slice_cons (by omega) hst, ← he', slice_self]
      refine ⟨fun h => absurd h (throwFormatException_ne _), ?_⟩
      rintro ⟨n, hn, -⟩
      rw [hs, magnitude_hex_iff (or_eq_x.mp hx)] at hn
      exact absurd rfl hn.1
    · have hs : source.slice start stop =
          0x30 :: source.codeUnitAt (start + 1) :: source.slice (start + 1 + 1) stop := by
        rw [hc, hz, slice_cons (by omega) hst]
      rw [parseDigits_iff (by decide) (by decide) hst (by omega), hs]
      exact exists_congr fun n => and_congr_left fun _ => (magnitude_hex_iff (or_eq_x.mp hx)).symm
    · refine hd fun x rest heq => ?_
      rw [hc, slice_cons (by omega) hst] at heq
      rw [← (List.cons.inj (List.cons.inj heq).2).1]
      rw [or_eq_x] at hx
      omega
    · refine hd fun x rest heq => ?_
      rw [hc] at heq
      exact absurd (List.cons.inj heq).1 hz

theorem Denotes.ne_nil (h : Denotes radix text v) : text ≠ [] := by
  obtain ⟨n, ⟨h, -⟩ | ⟨rest, rfl, -⟩ | ⟨rest, rfl, -⟩⟩ := h
  · exact h.ne_nil
  · simp
  · simp

theorem denotes_sign_iff (hc : c = 0x2B ∨ c = 0x2D) : Denotes radix (c :: text) v ↔
    ∃ n : ℕ, Magnitude radix text n ∧ v = (0x2C - c : ℤ) * n := by
  refine exists_congr fun n => ⟨fun h => ?_, fun h => ?_⟩
  · rcases h with ⟨h, -⟩ | ⟨rest, heq, h, rfl⟩ | ⟨rest, heq, h, rfl⟩
    · have := h.head
      omega
    · obtain ⟨rfl, rfl⟩ := List.cons.inj heq
      exact ⟨h, by simp⟩
    · obtain ⟨rfl, rfl⟩ := List.cons.inj heq
      exact ⟨h, by simp⟩
  · obtain ⟨h, rfl⟩ := h
    rcases hc with rfl | rfl
    · exact .inr (.inl ⟨text, rfl, h, by simp⟩)
    · exact .inr (.inr ⟨text, rfl, h, by simp⟩)

theorem denotes_unsigned_iff (hc : ¬(c = 0x2B ∨ c = 0x2D)) : Denotes radix (c :: text) v ↔
    ∃ n : ℕ, Magnitude radix (c :: text) n ∧ v = 1 * (n : ℤ) := by
  refine exists_congr fun n => ⟨fun h => ?_, fun h => .inl (by rwa [one_mul] at h)⟩
  rw [one_mul]
  rcases h with h | ⟨rest, heq, -⟩ | ⟨rest, heq, -⟩
  · exact h
  · exact absurd (.inl (List.cons.inj heq).1) hc
  · exact absurd (.inr (List.cons.inj heq).1) hc

theorem parseTrimmed_body (hrd : ∀ r ∈ radix, 2 ≤ r ∧ r ≤ 36) {body : List ℕ}
    (hb : Trims source.codeUnits body) (hne : body ≠ []) :
    parseTrimmed is64Bit source onError radix = .value v ↔ Denotes radix body v := by
  obtain ⟨hs, hl, hst⟩ := hb.bounds hne
  unfold parseTrimmed
  set start := source.firstNonWhitespace
  set stop := (source.lastNonWhitespace + 1).toNat
  have hp : 0 < body.length := length_pos_iff.mpr hne
  have hlt : start < stop := by omega
  dsimp only
  rw [if_neg (by omega)]
  rw [slice_cons hlt hst] at hs
  rw [← hs]
  split_ifs with hsg he
  · rw [denotes_sign_iff hsg, ← he, slice_self]
    refine ⟨fun h => absurd h (throwFormatException_ne _), ?_⟩
    rintro ⟨n, hn, -⟩
    exact absurd rfl hn.ne_nil
  · rw [denotes_sign_iff hsg]
    exact parseUnsigned_iff hrd hst (by omega)
  · rw [denotes_unsigned_iff hsg, ← slice_cons hlt hst]
    exact parseUnsigned_iff hrd hst hlt

theorem parseTrimmed_iff (hrd : ∀ r ∈ radix, 2 ≤ r ∧ r ≤ 36) :
    parseTrimmed is64Bit source onError radix = .value v ↔
      ∃ body, Trims source.codeUnits body ∧ Denotes radix body v := by
  constructor
  · intro h
    rcases exists_trims source.codeUnits with ha | ⟨body, hne, hbody⟩
    · unfold parseTrimmed at h
      rw [lastNonWhitespace_of_all ha] at h
      exact absurd h (throwFormatException_ne _)
    · exact ⟨body, hbody, (parseTrimmed_body hrd hbody hne).mp h⟩
  · rintro ⟨body, hbody, h⟩
    exact (parseTrimmed_body hrd hbody h.ne_nil).mpr h

theorem tryParseDigits_some {ix last : ℕ} (h : tryParseDigits is64Bit source ix last sign = some v) :
    ∃ digits, Digits 10 (source.slice ix (last + 1)) digits ∧
      v = sign * (Nat.ofDigits 10 digits.reverse : ℕ) := by
  unfold tryParseDigits at h
  by_cases hlimit : last - ix ≥ if is64Bit then 18 else 9
  · rw [if_pos hlimit] at h
    cases h
  rw [if_neg hlimit] at h
  obtain ⟨n, hn, hv⟩ := bind_eq_some_iff.mp h
  have hr : readDigits 10 (decimalDigit 10) 0 (source.slice ix (last + 1)) = some n := by
    rw [← hn]
    unfold readDigits decimalDigit
    congr 1
    funext result c
    rw [Nat.xor_comm 0x30 c]
    by_cases hc : c ^^^ 0x30 ≥ 10
    · rw [if_pos hc, if_pos (by omega)]
      rfl
    · rw [if_neg hc, if_neg (by omega)]
      rfl
  obtain ⟨digits, hd, rfl⟩ := (readDigits_iff fun c digit => decimalDigit_iff (Nat.le_refl 10)).mp hr
  exact ⟨digits, hd, (some.inj hv).symm⟩

theorem Digits.not_whitespace {r : ℕ} {digits : List ℕ} (h : Digits r text digits) :
    ∀ c ∈ text, ¬IsWhitespace c := by
  intro c hc
  induction h with
  | nil => cases hc
  | cons hd _ ih =>
    rcases mem_cons.mp hc with rfl | hc
    · unfold DigitValue at hd
      unfold IsWhitespace
      omega
    · exact ih hc

theorem trims_self (h : ∀ c ∈ text, ¬IsWhitespace c) : Trims text text :=
  ⟨[], [], by simp, nofun, nofun,
    fun c hc => h c (mem_of_head? hc), fun c hc => h c (mem_of_getLast? hc)⟩

theorem tryParseSmi_some (hne : source.codeUnits ≠ []) (hrd : radix = none ∨ radix = some 10)
    (h : tryParseSmi is64Bit source 0 (source.length - 1) = some v) :
    Trims source.codeUnits source.codeUnits ∧ Denotes radix source.codeUnits v := by
  have hp : 0 < source.length := length_pos_iff.mpr hne
  have hl : source.length - 1 + 1 = source.length := by omega
  have hs : source.slice 0 source.length = source.codeUnits := by
    unfold DartString.slice DartString.length
    rw [take_length, drop_zero]
  have hm : ∀ {text : List ℕ} {n : ℕ}, Numeral 10 text n → Magnitude radix text n := by
    intro text n h
    rcases hrd with rfl | rfl
    · exact .inl h
    · exact h
  have hc := slice_cons hp (le_rfl)
  unfold tryParseSmi at h
  dsimp only at h
  split_ifs at h with hsg he
  · obtain ⟨digits, hd, rfl⟩ := tryParseDigits_some h
    rw [hl] at hd
    have hr : source.slice (0 + 1) source.length ≠ [] := by
      rw [← length_pos_iff, length_slice (le_rfl)]
      omega
    rw [← hs, hc]
    refine ⟨trims_self (forall_mem_cons.mpr ⟨?_, hd.not_whitespace⟩), ?_⟩
    · unfold IsWhitespace
      omega
    · exact (denotes_sign_iff hsg).mpr ⟨_, hm ⟨hr, digits, hd, rfl⟩, rfl⟩
  · obtain ⟨digits, hd, rfl⟩ := tryParseDigits_some h
    rw [hl, hs] at hd
    refine ⟨trims_self hd.not_whitespace, _, .inl ⟨hm ⟨hne, digits, hd, rfl⟩, ?_⟩⟩
    rw [one_mul]

/-- **`int.parse` accepts exactly its grammar and returns the value that is denoted**, on both tables. -/
theorem parse_iff (is64Bit : Bool) (source : DartString) (onError : Option (DartString → ℤ))
    (radix : Option ℕ) (hrd : ∀ r ∈ radix, 2 ≤ r ∧ r ≤ 36) (v : ℤ) :
    parse is64Bit source onError radix = .value v ↔
      ∃ body, Trims source.codeUnits body ∧ Denotes radix body v := by
  have ht : parseTrimmed is64Bit source onError radix = .value v ↔ _ := parseTrimmed_iff hrd
  rw [← ht]
  unfold parse
  by_cases hempty : source.codeUnits = []
  · rw [if_pos hempty, parseTrimmed_iff hrd]
    refine ⟨fun h => absurd h (throwFormatException_ne _), ?_⟩
    rintro ⟨body, ⟨_, _, heq, -⟩, hbody⟩
    rw [hempty] at heq
    have hn := append_eq_nil_iff.mp heq.symm
    exact absurd (append_eq_nil_iff.mp hn.1).2 hbody.ne_nil
  rw [if_neg hempty]
  -- What the direct attempt returns is what `_parse` would return.
  have hd : radix = none ∨ radix = some 10 →
      ((match tryParseSmi is64Bit source 0 (source.length - 1) with
        | some result => ParseOutcome.value result
        | none => parseTrimmed is64Bit source onError radix) = .value v ↔
        parseTrimmed is64Bit source onError radix = .value v) := by
    intro hdc
    cases hty : tryParseSmi is64Bit source 0 (source.length - 1) with
    | none => rfl
    | some result =>
      obtain ⟨htr, hdn⟩ := tryParseSmi_some hempty hdc hty
      rw [(parseTrimmed_iff hrd).mpr ⟨_, htr, hdn⟩]
  cases radix with
  | none => exact hd (.inl rfl)
  | some r =>
    obtain ⟨hr, hr'⟩ := hrd r rfl
    dsimp only
    split_ifs with htn hrn
    · exact hd (.inr (by rw [htn]))
    · omega
    · rfl

/-- A hexadecimal literal between spaces. -/
theorem parse_hex : ∃ source : DartString, source.codeUnits = [0x20, 0x2D, 0x30, 0x78, 0x31, 0x46, 0x0A] ∧
    parse true source none none = .value (-31) := by
  refine ⟨⟨[0x20, 0x2D, 0x30, 0x78, 0x31, 0x46, 0x0A], true, by decide⟩, rfl, ?_⟩
  refine (parse_iff true _ none none (nofun) (-31)).mpr
    ⟨[0x2D, 0x30, 0x78, 0x31, 0x46], ⟨[0x20], [0x0A], rfl, ?_, ?_, ?_, ?_⟩, 31, .inr (.inr
      ⟨_, rfl, .inr ⟨0x78, [0x31, 0x46], .inl rfl, rfl, by simp, [1, 15], ?_, by decide⟩, rfl⟩)⟩
  · simp [IsWhitespace]
  · simp [IsWhitespace]
  · simp [IsWhitespace]
  · simp [IsWhitespace]
  · exact .cons ⟨.inl (by decide), by decide⟩ (.cons ⟨.inr (.inl (by decide)), by decide⟩ .nil)

end Literals

end DartSdk.Core
