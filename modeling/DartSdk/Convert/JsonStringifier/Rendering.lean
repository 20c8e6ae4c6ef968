import DartSdk.Convert.JsonParser.Soundness
import DartSdk.Convert.JsonStringifier
import Mathlib.Data.Nat.Digits.Lemmas

/-!
# The text of a tree

`render` is what both stringifiers write for a tree.  Its strings and numbers are those of the grammar
(`chars_content`, `numeral_intToString`), and the loop of `writeStringContent`, which copies the runs
between the characters that it escapes, writes them (`writeStringContent_eq`).
-/

namespace DartSdk.Convert

open JsonGrammar ChunkedJsonParser List

section Rendering

/-- What is written for a control character, after the backslash. -/
def control (c : ℕ) : List ℕ :=
  if c = 0x08 then [0x62]
  else if c = 0x09 then [0x74]
  else if c = 0x0A then [0x6E]
  else if c = 0x0C then [0x66]
  else if c = 0x0D then [0x72]
  else [0x75, 0x30, 0x30, JsonStringifier.hexDigit ((c >>> 4) &&& 0xF),
    JsonStringifier.hexDigit (c &&& 0xF)]

def escaped (c : ℕ) : List ℕ :=
  if c < 32 then 0x5C :: control c
  else if c = 0x22 ∨ c = 0x5C then [0x5C, c]
  else [c]

def content (s : List ℕ) : List ℕ := s.flatMap escaped

variable (indent : Option (List ℕ))

/-- The pretty stringifier puts every element on a line of its own. -/
def newline (level : ℕ) : List ℕ :=
  match indent with
  | none => []
  | some indent => 0x0A :: (List.replicate level indent).flatten

def colon : List ℕ :=
  match indent with
  | none => [0x3A]
  | some _ => [0x3A, 0x20]

mutual

/-- The text of a tree at an indentation level. -/
def render (level : ℕ) : Json → List ℕ
  | .null => keywordNull
  | .bool true => keywordTrue
  | .bool false => keywordFalse
  | .number (.int n) => intToString n
  | .number (.double literal) => literal
  | .string s => 0x22 :: (content s ++ [0x22])
  | .list [] => [0x5B, 0x5D]
  | .list (v :: vs) =>
    0x5B :: (newline indent (level + 1) ++ render (level + 1) v ++ renderElements (level + 1) vs ++
      newline indent level ++ [0x5D])
  | .map [] => [0x7B, 0x7D]
  | .map ((key, v) :: entries) =>
    0x7B :: (newline indent (level + 1) ++ 0x22 :: (content key ++ 0x22 :: colon indent) ++
      render (level + 1) v ++ renderMembers (level + 1) entries ++ newline indent level ++ [0x7D])

def renderElements (level : ℕ) : List Json → List ℕ
  | [] => []
  | v :: vs => 0x2C :: (newline indent level ++ render level v ++ renderElements level vs)

def renderMembers (level : ℕ) : List (List ℕ × Json) → List ℕ
  | [] => []
  | (key, v) :: entries =>
    0x2C :: (newline indent level ++ 0x22 :: (content key ++ 0x22 :: colon indent) ++ render level v ++
      renderMembers level entries)

end

end Rendering

theorem sizeOf_lt_list {v : Json} {vs : List Json} (h : v ∈ vs) : sizeOf v < sizeOf (Json.list vs) := by
  have := sizeOf_lt_of_mem h
  simp only [Json.list.sizeOf_spec]
  omega

theorem sizeOf_lt_map {entry : List ℕ × Json} {entries : List (List ℕ × Json)} (h : entry ∈ entries) :
    sizeOf entry.2 < sizeOf (Json.map entries) := by
  have := sizeOf_lt_of_mem h
  obtain ⟨key, v⟩ := entry
  simp only [Json.map.sizeOf_spec, Prod.mk.sizeOf_spec] at this ⊢
  omega

/-- Induction on trees. -/
theorem Json.induct {P : Json → Prop} (null : P .null) (bool : ∀ b, P (.bool b))
    (number : ∀ n, P (.number n)) (string : ∀ s, P (.string s))
    (list : ∀ vs, (∀ v ∈ vs, P v) → P (.list vs))
    (map : ∀ entries, (∀ entry ∈ entries, P entry.2) → P (.map entries)) : ∀ v, P v
  | .null => null
  | .bool b => bool b
  | .number n => number n
  | .string s => string s
  | .list vs => list vs fun v _ => Json.induct null bool number string list map v
  | .map entries => map entries fun entry _ => Json.induct null bool number string list map entry.2
decreasing_by
  · exact sizeOf_lt_list ‹_›
  · exact sizeOf_lt_map ‹_›

section Strings

variable {raw s : List ℕ} {c : ℕ}

theorem hexDigit_hexDigit (d : ℕ) (h : d < 16) : hexDigit (JsonStringifier.hexDigit d) = some d := by
  revert d
  decide

theorem Chars.control (h : Chars raw s) (hc : c < 32) :
    Chars (raw ++ 0x5C :: control c) (s ++ [c]) := by
  have hz : hexDigit 0x30 = some 0 := rfl
  have hh : (c >>> 4) &&& 0xF < 16 := Nat.lt_succ_of_le Nat.and_le_right
  have hl : c &&& 0xF < 16 := Nat.lt_succ_of_le Nat.and_le_right
  have hv : 16 * (16 * (16 * (16 * 0 + 0) + 0) + ((c >>> 4) &&& 0xF)) + (c &&& 0xF) = c := by
    clear h hh hl
    revert c
    decide
  unfold Convert.control
  split_ifs with hc' hc' hc' hc' hc'
  any_goals
    subst hc'
    exact .escape h (by decide)
  have hhx := (((Hex.nil.digit hz).digit hz).digit (hexDigit_hexDigit _ hh)).digit
    (hexDigit_hexDigit _ hl)
  rw [hv] at hhx
  exact .unicode h hhx rfl

theorem Chars.escaped (h : Chars raw s) (c : ℕ) : Chars (raw ++ escaped c) (s ++ [c]) := by
  unfold Convert.escaped
  split_ifs with hc hs
  · exact Chars.control h hc
  · rcases hs with rfl | rfl
    · exact .escape h (by decide)
    · exact .escape h (by decide)
  · exact .plain h (by omega) (fun h => hs (.inl h)) fun h => hs (.inr h)

/-- **What is written of a string is read as the string.** -/
theorem chars_content (s : List ℕ) : Chars (content s) s := by
  induction s using List.reverseRecOn with
  | nil => exact .nil
  | append_singleton s c ih =>
    have hc : content (s ++ [c]) = content s ++ escaped c := by
      simp [content]
    rw [hc]
    exact Chars.escaped ih c

end Strings

section Numbers

theorem decimalValue_decimalDigits (n : ℕ) : decimalValue (decimalDigits n) = n := by
  unfold decimalDigits
  split_ifs with h
  · rw [h]
    decide
  unfold decimalValue
  rw [← map_reverse, reverse_reverse, map_map]
  have hid : (fun d => d - 0x30) ∘ (fun d => d + 0x30) = (id : ℕ → ℕ) := by
    funext d
    exact Nat.add_sub_cancel d 0x30
  rw [hid, map_id, Nat.ofDigits_digits]

theorem isInt_decimalDigits (n : ℕ) : IsInt (decimalDigits n) := by
  unfold decimalDigits
  split_ifs with h
  · exact .zero
  have hne : Nat.digits 10 n ≠ [] := Nat.digits_ne_nil_iff_ne_zero.mpr h
  have hl := Nat.getLast_digit_ne_zero 10 h
  have hlt : ∀ d ∈ Nat.digits 10 n, IsDigit (d + 0x30) := by
    intro d hd
    have := Nat.digits_lt_base (by decide) hd
    exact ⟨by omega, by omega⟩
  rw [← dropLast_append_getLast hne, reverse_append, reverse_singleton,
    singleton_append, map_cons]
  refine .digits (hlt _ (getLast_mem hne)) (by omega) ?_
  intro c hc
  obtain ⟨d, hd, rfl⟩ := mem_map.mp hc
  exact hlt d (dropLast_subset _ (mem_reverse.mp hd))

theorem numeral_intToString (n : ℤ) : Numeral (intToString n) (.int n) := by
  unfold intToString
  split_ifs with h
  · have := Numeral.neg (isInt_decimalDigits n.natAbs)
    rwa [decimalValue_decimalDigits, show -(n.natAbs : ℤ) = n by omega] at this
  · have := Numeral.nonneg (isInt_decimalDigits n.natAbs)
    rwa [decimalValue_decimalDigits, show (n.natAbs : ℤ) = n by omega] at this

end Numbers

section Writing

open JsonStringifier (contentLoop flush writeControl writeIndentation writeStringContent writeStringSlice)

variable {w : JsonStringifier} {c : ℕ} {s : List ℕ}

@[simp] theorem writeString_writeString (a b : List ℕ) :
    (w.writeString a).writeString b = w.writeString (a ++ b) := by
  unfold JsonStringifier.writeString
  simp

@[simp] theorem writeString_nil : w.writeString [] = w := by
  unfold JsonStringifier.writeString
  simp

theorem writeCharCode_eq (h : c < 0x10000) : w.writeCharCode c = w.writeString [c] := by
  unfold JsonStringifier.writeCharCode
  rw [utf16_of_lt h]
  rfl

theorem hexDigit_lt (d : ℕ) (h : d < 16) : JsonStringifier.hexDigit d < 0x10000 := by
  unfold JsonStringifier.hexDigit
  split_ifs <;> omega

theorem writeControl_eq (c : ℕ) : w.writeControl c = w.writeString (control c) := by
  have hh := hexDigit_lt ((c >>> 4) &&& 0xF) (Nat.lt_succ_of_le Nat.and_le_right)
  have hl := hexDigit_lt (c &&& 0xF) (Nat.lt_succ_of_le Nat.and_le_right)
  unfold writeControl control BACKSPACE TAB NEWLINE FORM_FEED CARRIAGE_RETURN
  split_ifs with h h h h h
  any_goals
    subst h
    exact writeCharCode_eq (by decide)
  have hz : CHAR_0 < 0x10000 := by decide
  have hu : CHAR_u < 0x10000 := by decide
  rw [writeCharCode_eq hl, writeCharCode_eq hh, writeCharCode_eq hz, writeCharCode_eq hz,
    writeCharCode_eq hu]
  simp only [writeString_writeString]
  rfl

theorem flush_eq {before rest : List ℕ} {offset : ℕ} (h : offset ≤ before.length) :
    w.flush (before ++ rest) offset before.length = w.writeString (before.drop offset) := by
  unfold flush
  split_ifs with hlt
  · unfold writeStringSlice
    rw [take_left]
    rfl
  · rw [drop_of_length_le (by omega), writeString_nil]

/-- The loop: what is not yet written is what `before` has from the offset on. -/
theorem contentLoop_eq {before rest : List ℕ} {offset : ℕ} (h : offset ≤ before.length) :
    let r := contentLoop (before ++ rest) rest before.length offset w
    r.1.writeString ((before ++ rest).drop r.2) =
      w.writeString (before.drop offset ++ content rest) := by
  induction rest generalizing before offset w with
  | nil =>
    show w.writeString ((before ++ []).drop offset) = _
    rw [append_nil]
    simp [content]
  | cons c rest ih =>
    have hcn : content (c :: rest) = escaped c ++ content rest := flatMap_cons
    have hsp : before ++ c :: rest = before ++ [c] ++ rest := by simp
    have hl : (before ++ [c]).length = before.length + 1 := by simp
    -- A character that is left for later.
    have hp : escaped c = [c] →
        let r := contentLoop (before ++ c :: rest) rest (before.length + 1) offset w
        r.1.writeString ((before ++ c :: rest).drop r.2) =
          w.writeString (before.drop offset ++ content (c :: rest)) := by
      intro hes
      have := ih (w := w) (show offset ≤ (before ++ [c]).length by omega)
      rw [hl, ← hsp, drop_append_of_le_length h] at this
      rw [hcn, hes]
      simpa using this
    -- A character that is written with everything before it.
    have he : ∀ w', w' = w.writeString (before.drop offset ++ escaped c) →
        let r := contentLoop (before ++ c :: rest) rest (before.length + 1)
          (before.length + 1) w'
        r.1.writeString ((before ++ c :: rest).drop r.2) =
          w.writeString (before.drop offset ++ content (c :: rest)) := by
      rintro w' rfl
      have hn : (before ++ [c]).drop (before.length + 1) = [] := by
        rw [← hl, drop_length]
      have := ih (w := w.writeString (before.drop offset ++ escaped c))
        (show before.length + 1 ≤ (before ++ [c]).length by omega)
      rw [hl, ← hsp, hn] at this
      rw [hcn]
      simpa using this
    unfold contentLoop
    split_ifs with hgt hc hs
    · refine hp ?_
      unfold BACKSLASH at hgt
      unfold escaped
      rw [if_neg (by omega), if_neg (by omega)]
    · refine he _ ?_
      rw [writeControl_eq, writeCharCode_eq (by decide), flush_eq h]
      unfold escaped
      rw [if_pos hc]
      simp [BACKSLASH]
    · refine he _ ?_
      unfold QUOTE BACKSLASH at hs
      rw [writeCharCode_eq (by omega), writeCharCode_eq (by decide), flush_eq h]
      unfold escaped
      rw [if_neg hc, if_pos hs]
      simp [BACKSLASH]
    · refine hp ?_
      unfold QUOTE BACKSLASH at hs
      unfold escaped
      rw [if_neg hc, if_neg hs]

theorem writeStringContent_eq (s : List ℕ) : w.writeStringContent s = w.writeString (content s) := by
  have hl : (contentLoop s s 0 0 w).1.writeString (s.drop (contentLoop s s 0 0 w).2) =
      w.writeString (content s) :=
    contentLoop_eq (Nat.le_refl ([] : List ℕ).length)
  unfold writeStringContent
  rw [← hl]
  dsimp only
  split_ifs with hz hlt
  · rw [hz, drop_zero]
  · unfold writeStringSlice
    rw [take_length]
    rfl
  · rw [drop_of_length_le (by omega), writeString_nil]

theorem writeIndentation_eq (indent : List ℕ) (count : ℕ) :
    writeIndentation indent count w =
      w.writeString (List.replicate count indent).flatten := by
  induction count generalizing w with
  | zero => simp [writeIndentation]
  | succ count ih => simp [writeIndentation, ih, replicate_succ]

end Writing

end DartSdk.Convert
