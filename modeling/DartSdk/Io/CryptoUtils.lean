import Mathlib.Data.UInt

/-!
# Base64 (`crypto.dart`)

The decoder of the I/O library.  It counts the characters outside the alphabet, the padding and the
bytes to write in passes of their own.

* `countExtras_eq`, `countPads_eq`: what the first two passes count;
* `decode_ok`: the last one finds its characters;
* **`base64StringToBytes_safe`**: the texts on which it returns or throws a format exception.
-/

namespace DartSdk.Io.CryptoUtils

open List

/-- What the decoder throws; the first two are format exceptions, with what their messages quote. -/
inductive Thrown
  | invalidCharacter (unit : UInt16)
  | size (input : List UInt16)
  /-- A read outside of the decode table or the input. -/
  | rangeError
  /-- A list of a negative length. -/
  | argumentError
  deriving DecidableEq

def Thrown.isFormatException : Thrown → Bool
  | .invalidCharacter _ | .size _ => true
  | .rangeError | .argumentError => false

def PAD : UInt16 := 61

def entries (first : ℤ) (count : ℕ) : List ℤ := (range count).map (first + ·)

/-- The place of a byte in the alphabet, `-1` for CR and LF and `-2` outside of the alphabet. -/
def decodeTable : List ℤ :=
  replicate 10 (-2) ++ [-1, -2, -2, -1] ++ replicate 29 (-2) ++ [62, -2, 62, -2, 63] ++
    entries 52 10 ++ [-2, -2, -2, 0, -2, -2, -2] ++ entries 0 26 ++ [-2, -2, -2, -2, 63, -2] ++
    entries 26 26 ++ replicate 133 (-2)

def index (unit : UInt16) : ℤ := decodeTable.getD unit.toNat (-2)

def lookup (unit : UInt16) : Except Thrown ℤ :=
  if unit.toNat < decodeTable.length then .ok (index unit) else .error .rangeError

section

variable (ignoreInvalidCharacters : Bool)

def countExtras : List UInt16 → ℕ → Except Thrown ℕ
  | [], extrasLen => .ok extrasLen
  | unit :: input, extrasLen => do
    let c ← lookup unit
    if c < 0 then
      if c = -2 ∧ !ignoreInvalidCharacters then .error (.invalidCharacter unit)
      else countExtras input (extrasLen + 1)
    else countExtras input extrasLen

/-- The padding, from the end of the text on. -/
def countPads : List UInt16 → ℕ → Except Thrown ℕ
  | [], padLength => .ok padLength
  | unit :: input, padLength => do
    if 0 < (← lookup unit) then .ok padLength
    else countPads input (if unit = PAD then padLength + 1 else padLength)

/-- The next `j` characters of the alphabet in one number, and the text after them. -/
def accumulate : ℕ → ℕ → List UInt16 → Except Thrown (ℕ × List UInt16)
  | 0, x, input => .ok (x, input)
  | _ + 1, _, [] => .error .rangeError
  | j + 1, x, unit :: input => do
    let c ← lookup unit
    if 0 ≤ c then accumulate j (((x <<< 6) &&& 0xFFFFFF) ||| c.toNat) input
    else accumulate (j + 1) x input

def chunk (x : ℕ) : List ℕ := [x >>> 16, (x >>> 8) &&& 0xFF, x &&& 0xFF]

/-- The last loop, with the number of bytes that it still has to write. -/
def decode : ℕ → List UInt16 → Except Thrown (List ℕ)
  | 0, _ => .ok []
  | n + 3, input => do
    let (x, input) ← accumulate 4 0 input
    .ok (chunk x ++ (← decode n input))
  | n, input => do
    let (x, _) ← accumulate 4 0 input
    .ok ((chunk x).take n)

def base64StringToBytes (input : List UInt16) : Except Thrown (List ℕ) :=
  if input = [] then .ok []
  else do
    let extrasLen ← countExtras ignoreInvalidCharacters input 0
    if (input.length - extrasLen) % 4 ≠ 0 then .error (.size input)
    else do
      let padLength ← countPads input.reverse 0
      let outputLen : ℤ := ↑(((input.length - extrasLen) * 6) >>> 3) - ↑padLength
      if outputLen < 0 then .error .argumentError else decode outputLen.toNat input

/-- The unit ends the first pass: it is outside of the table, or invalid and not ignored. -/
def Stops (unit : UInt16) : Bool :=
  256 ≤ unit.toNat || (index unit = -2 && !ignoreInvalidCharacters)

/-- The characters of the alphabet in a text, with the padding. -/
def characters (input : List UInt16) : List UInt16 := input.filter (0 ≤ index ·)

/-- The padding after the last character whose place in the alphabet is not zero. -/
def pads (input : List UInt16) : ℕ := (input.reverse.takeWhile (index · ≤ 0)).count PAD

/-- The unit that ends the first pass is in the table; if none does, and the characters come in
fours, at most three in four of them are padding at the end. -/
def Safe (input : List UInt16) : Prop :=
  match input.find? (Stops ignoreInvalidCharacters) with
  | some unit => unit.toNat < 256
  | none => 4 ∣ (characters input).length → 4 * pads input ≤ 3 * (characters input).length

end

variable {ignore : Bool} {input : List UInt16} {unit : UInt16}

theorem length_decodeTable : decodeTable.length = 256 := by decide +kernel

theorem lookup_of_lt (h : unit.toNat < 256) : lookup unit = .ok (index unit) :=
  if_pos (length_decodeTable ▸ h)

theorem characters_cons_of_neg (h : index unit < 0) :
    characters (unit :: input) = characters input := filter_cons_of_neg (by simpa using h)

theorem characters_cons (h : 0 ≤ index unit) :
    characters (unit :: input) = unit :: characters input := filter_cons_of_pos (by simpa using h)

theorem countExtras_eq (extrasLen : ℕ) : countExtras ignore input extrasLen =
    match input.find? (Stops ignore) with
    | some unit => .error (if unit.toNat < 256 then .invalidCharacter unit else .rangeError)
    | none => .ok (extrasLen + (input.length - (characters input).length)) := by
  induction input generalizing extrasLen with
  | nil => rfl
  | cons unit input ih =>
    cases hs : Stops ignore unit with
    | true =>
      rw [find?_cons_of_pos hs, countExtras]
      by_cases hu : unit.toNat < 256
      · have hst : index unit = -2 ∧ ignore = false := by
          simpa [Stops, Nat.not_le.2 hu] using hs
        simp [lookup_of_lt hu, hst, hu, bind, Except.bind]
      · simp [lookup, length_decodeTable, hu, bind, Except.bind]
    | false =>
      obtain ⟨hu, hst⟩ : unit.toNat < 256 ∧ (index unit = -2 → ignore) := by
        simpa [Stops] using hs
      rw [find?_cons_of_neg (by simp [hs]), countExtras, lookup_of_lt hu]
      by_cases hc : index unit < 0
      · have hle : (characters input).length ≤ input.length := length_filter_le ..
        simp only [bind, Except.bind, ih, characters_cons_of_neg hc]
        rw [if_pos hc, if_neg (by simpa using hst)]
        cases input.find? (Stops ignore) with
        | some unit => rfl
        | none => exact congrArg Except.ok (by rw [length_cons]; omega)
      · simp [bind, Except.bind, ih, characters_cons (Int.not_lt.1 hc), hc]

section

variable (hi : ∀ unit ∈ input, unit.toNat < 256)

include hi

theorem countPads_eq (padLength : ℕ) :
    countPads input padLength = .ok (padLength + (input.takeWhile (index · ≤ 0)).count PAD) := by
  induction input generalizing padLength with
  | nil => rfl
  | cons unit input ih =>
    obtain ⟨hu, hi⟩ := forall_mem_cons.1 hi
    simp only [countPads, lookup_of_lt hu, bind, Except.bind, ih hi, takeWhile_cons]
    by_cases hc : index unit ≤ 0
    · by_cases hpad : unit = PAD
      · simp [Int.not_lt.2 hc, hc, ← hpad, Nat.add_assoc, Nat.add_comm 1]
      · simp [Int.not_lt.2 hc, hc, hpad]
    · simp [hc, Int.not_le.1 hc]

theorem accumulate_ok {j : ℕ} (hj : j ≤ (characters input).length) (x : ℕ) :
    ∃ x' rest, accumulate j x input = .ok (x', rest) ∧ (∀ unit ∈ rest, unit.toNat < 256) ∧
      (characters rest).length + j = (characters input).length := by
  induction input generalizing j x with
  | nil =>
    obtain rfl : j = 0 := by simpa [characters] using hj
    exact ⟨x, [], rfl, hi, rfl⟩
  | cons unit input ih =>
    cases j with
    | zero => exact ⟨x, _, rfl, hi, rfl⟩
    | succ j =>
      obtain ⟨hu, hi⟩ := forall_mem_cons.1 hi
      simp only [accumulate, lookup_of_lt hu, bind, Except.bind]
      by_cases hc : 0 ≤ index unit
      · rw [characters_cons hc, length_cons] at hj ⊢
        obtain ⟨x', rest, hrn, hr⟩ := ih hi (Nat.le_of_succ_le_succ hj) _
        exact ⟨x', rest, by rw [if_pos hc, hrn], hr.1, by omega⟩
      · rw [characters_cons_of_neg (Int.not_le.1 hc)] at hj ⊢
        rw [if_neg hc]
        exact ih hi hj x

theorem decode_ok {n k : ℕ} (hk : (characters input).length = 4 * k) (hn : n ≤ 3 * k) :
    ∃ bytes, decode n input = .ok bytes := by
  induction k generalizing n input with
  | zero =>
    obtain rfl : n = 0 := by omega
    exact ⟨[], rfl⟩
  | succ k ih =>
    obtain ⟨x, rest, hr, hrs, hl⟩ := accumulate_ok hi (j := 4) (by omega) 0
    match n with
    | 0 => exact ⟨[], rfl⟩
    | 1 | 2 => simp [decode, hr, bind, Except.bind]
    | n + 3 =>
      obtain ⟨bytes, hb⟩ := ih hrs (n := n) (by omega) (by omega)
      simp [decode, hr, hb, bind, Except.bind]

end

/-- **The decoder returns or throws a format exception** on the safe texts only. -/
theorem base64StringToBytes_safe (input : List UInt16) (ignoreInvalidCharacters : Bool) :
    (∀ thrown, base64StringToBytes ignoreInvalidCharacters input = .error thrown →
      thrown.isFormatException) ↔ Safe ignoreInvalidCharacters input := by
  by_cases hne : input = []
  · subst hne
    simp [base64StringToBytes, Safe, pads]
  rw [base64StringToBytes, if_neg hne, countExtras_eq, Safe]
  cases hf : input.find? (Stops ignoreInvalidCharacters) with
  | some unit =>
    by_cases hunit : unit.toNat < 256
    · simp [hunit, bind, Except.bind, Thrown.isFormatException]
    · simp [hunit, bind, Except.bind, Thrown.isFormatException]
  | none =>
    have hi : ∀ unit ∈ input, unit.toNat < 256 := by
      intro unit hm
      have hs := find?_eq_none.1 hf unit hm
      simp [Stops] at hs
      exact hs.1
    have hle : (characters input).length ≤ input.length := length_filter_le ..
    have hl : input.length - (0 + (input.length - (characters input).length)) =
      (characters input).length := by omega
    simp only [bind, Except.bind, hl]
    by_cases h4 : 4 ∣ (characters input).length
    · obtain ⟨k, hk⟩ := id h4
      have hp : countPads input.reverse 0 = .ok (pads input) :=
        (countPads_eq (by simpa using hi) 0).trans (by rw [Nat.zero_add, pads])
      have hsh : (4 * k * 6) >>> 3 = 3 * k := by
        rw [Nat.shiftRight_eq_div_pow]
        omega
      rw [hk, if_neg (by omega), hp, hsh]
      dsimp only
      split_ifs with hn
      · simp [Thrown.isFormatException]
        omega
      · obtain ⟨bytes, hb⟩ := decode_ok hi hk (n := (↑(3 * k) - ↑(pads input) : ℤ).toNat)
          (by omega)
        rw [hb]
        simp
        omega
    · rw [if_pos (by omega)]
      simp [h4, Thrown.isFormatException]

/-- Padding only, and a code unit outside of the table. -/
theorem base64StringToBytes_pads :
    base64StringToBytes true [PAD, PAD, PAD, PAD] = .error .argumentError ∧
      base64StringToBytes false [256] = .error .rangeError := by
  decide +kernel

end DartSdk.Io.CryptoUtils
