import DartSdk.Convert.JsonParser
import Mathlib.Data.List.Induction
import Mathlib.Data.Nat.Digits.Defs

/-!
# The JSON grammar

The grammar of RFC 7159 over code units, with the value that a text denotes.  It is written so that
sequences grow at their end, which is how they are read.

`Denotes text v`: the text is one JSON value `v` between whitespace.
-/

namespace DartSdk.Convert.JsonGrammar

section Tokens

def IsWhitespace (c : ℕ) : Prop := c = 0x20 ∨ c = 0x09 ∨ c = 0x0A ∨ c = 0x0D

def Whitespace (w : List ℕ) : Prop := ∀ c ∈ w, IsWhitespace c

def IsDigit (c : ℕ) : Prop := 0x30 ≤ c ∧ c ≤ 0x39

def Digits (ds : List ℕ) : Prop := ds ≠ [] ∧ ∀ c ∈ ds, IsDigit c

/-- The characters after a backslash, with what they stand for. -/
def escapes : List (ℕ × ℕ) :=
  [(0x22, 0x22), (0x5C, 0x5C), (0x2F, 0x2F), (0x62, 0x08), (0x66, 0x0C), (0x6E, 0x0A), (0x72, 0x0D),
    (0x74, 0x09)]

def hexDigit (c : ℕ) : Option ℕ :=
  if 0x30 ≤ c ∧ c ≤ 0x39 then some (c - 0x30)
  else if 0x41 ≤ c ∧ c ≤ 0x46 then some (c - 0x41 + 10)
  else if 0x61 ≤ c ∧ c ≤ 0x66 then some (c - 0x61 + 10)
  else none

/-- The hexadecimal digits `text` have the value `value`. -/
inductive Hex : List ℕ → ℕ → Prop
  | nil : Hex [] 0
  | digit {text : List ℕ} {value c digit : ℕ} (h : Hex text value) (hc : hexDigit c = some digit) :
    Hex (text ++ [c]) (16 * value + digit)

/-- The text between the quotes of a string, and the string. -/
inductive Chars : List ℕ → List ℕ → Prop
  | nil : Chars [] []
  | plain {text s : List ℕ} {c : ℕ} (h : Chars text s) (hc : 0x20 ≤ c) (hquote : c ≠ 0x22)
    (hbackslash : c ≠ 0x5C) : Chars (text ++ [c]) (s ++ [c])
  | escape {text s : List ℕ} {c d : ℕ} (h : Chars text s) (hc : (c, d) ∈ escapes) :
    Chars (text ++ [0x5C, c]) (s ++ [d])
  | unicode {text s digits : List ℕ} {value : ℕ} (h : Chars text s) (hdigits : Hex digits value)
    (hlength : digits.length = 4) : Chars (text ++ 0x5C :: 0x75 :: digits) (s ++ [value])

/-- No leading zeros. -/
inductive IsInt : List ℕ → Prop
  | zero : IsInt [0x30]
  | digits {c : ℕ} {ds : List ℕ} (hc : IsDigit c) (hne : c ≠ 0x30) (hds : ∀ c ∈ ds, IsDigit c) :
    IsInt (c :: ds)

inductive IsFrac : List ℕ → Prop
  | none : IsFrac []
  | digits {ds : List ℕ} (h : Digits ds) : IsFrac (0x2E :: ds)

inductive IsExp : List ℕ → Prop
  | none : IsExp []
  | digits {e : ℕ} {sign ds : List ℕ} (he : e = 0x65 ∨ e = 0x45)
    (hsign : sign = [] ∨ sign = [0x2B] ∨ sign = [0x2D]) (h : Digits ds) : IsExp (e :: (sign ++ ds))

def decimalValue (ds : List ℕ) : ℕ := Nat.ofDigits 10 (ds.reverse.map (· - 0x30))

/-- A number and its value.  A double is given by its text. -/
inductive Numeral : List ℕ → Number → Prop
  | nonneg {ds : List ℕ} (h : IsInt ds) : Numeral ds (.int (decimalValue ds))
  | neg {ds : List ℕ} (h : IsInt ds) : Numeral (0x2D :: ds) (.int (-decimalValue ds))
  | double {minus ds frac exp : List ℕ} (hminus : minus = [] ∨ minus = [0x2D]) (h : IsInt ds)
    (hfrac : IsFrac frac) (hexp : IsExp exp) (hne : frac ++ exp ≠ []) :
    Numeral (minus ++ ds ++ frac ++ exp) (.double (minus ++ ds ++ frac ++ exp))

end Tokens

/-- The entries of an object: the key of a member has the value of its last member
(`mem_ofMembers`). -/
def ofMembers (members : List (List ℕ × Json)) : List (List ℕ × Json) :=
  members.foldl (fun entries member => putEntry entries member.1 member.2) []

/-- What the grammar derives: a value, or the inside of an array or an object that has at least one
element or member, where the last one stands apart. -/
inductive Phrase
  | value (v : Json)
  | elements (init : List Json) (last : Json)
  | members (init : List (List ℕ × Json)) (key : List ℕ) (last : Json)

inductive Derives : Phrase → List ℕ → Prop
  | null : Derives (.value .null) [0x6E, 0x75, 0x6C, 0x6C]
  | true : Derives (.value (.bool Bool.true)) [0x74, 0x72, 0x75, 0x65]
  | false : Derives (.value (.bool Bool.false)) [0x66, 0x61, 0x6C, 0x73, 0x65]
  | number {text : List ℕ} {n : Number} (h : Numeral text n) : Derives (.value (.number n)) text
  | string {text s : List ℕ} (h : Chars text s) :
    Derives (.value (.string s)) (0x22 :: (text ++ [0x22]))
  | emptyArray {w : List ℕ} (hw : Whitespace w) : Derives (.value (.list [])) (0x5B :: (w ++ [0x5D]))
  | array {init : List Json} {last : Json} {text : List ℕ} (h : Derives (.elements init last) text) :
    Derives (.value (.list (init ++ [last]))) (0x5B :: (text ++ [0x5D]))
  | emptyObject {w : List ℕ} (hw : Whitespace w) : Derives (.value (.map [])) (0x7B :: (w ++ [0x7D]))
  | object {init : List (List ℕ × Json)} {key : List ℕ} {last : Json} {text : List ℕ}
    (h : Derives (.members init key last) text) :
    Derives (.value (.map (ofMembers (init ++ [(key, last)])))) (0x7B :: (text ++ [0x7D]))
  | element {v : Json} {w text w' : List ℕ} (hw : Whitespace w) (h : Derives (.value v) text)
    (hw' : Whitespace w') : Derives (.elements [] v) (w ++ text ++ w')
  | elements {init : List Json} {last v : Json} {text w text' w' : List ℕ}
    (h : Derives (.elements init last) text) (hw : Whitespace w) (h' : Derives (.value v) text')
    (hw' : Whitespace w') :
    Derives (.elements (init ++ [last]) v) (text ++ 0x2C :: (w ++ text' ++ w'))
  | member {key : List ℕ} {v : Json} {w name w₁ w₂ text w' : List ℕ} (hw : Whitespace w)
    (hname : Chars name key) (hw₁ : Whitespace w₁) (hw₂ : Whitespace w₂) (h : Derives (.value v) text)
    (hw' : Whitespace w') :
    Derives (.members [] key v) (w ++ 0x22 :: (name ++ 0x22 :: (w₁ ++ 0x3A :: (w₂ ++ text ++ w'))))
  | members {init : List (List ℕ × Json)} {key key' : List ℕ} {last v : Json}
    {text w name w₁ w₂ text' w' : List ℕ} (h : Derives (.members init key last) text)
    (hw : Whitespace w) (hname : Chars name key') (hw₁ : Whitespace w₁) (hw₂ : Whitespace w₂)
    (h' : Derives (.value v) text') (hw' : Whitespace w') :
    Derives (.members (init ++ [(key, last)]) key' v)
      (text ++ 0x2C :: (w ++ 0x22 :: (name ++ 0x22 :: (w₁ ++ 0x3A :: (w₂ ++ text' ++ w')))))

/-- **The text is one JSON value between whitespace.** -/
def Denotes (text : List ℕ) (v : Json) : Prop :=
  ∃ w valueText w', text = w ++ valueText ++ w' ∧ Whitespace w ∧ Derives (.value v) valueText ∧
    Whitespace w'

theorem ofMembers_append (members : List (List ℕ × Json)) (key : List ℕ) (v : Json) :
    ofMembers (members ++ [(key, v)]) = putEntry (ofMembers members) key v := by
  unfold ofMembers
  rw [List.foldl_append]
  rfl

theorem mem_putEntry {entries : List (List ℕ × Json)} (h : (entries.map Prod.fst).Nodup)
    (key : List ℕ) (v : Json) (entry : List ℕ × Json) :
    entry ∈ putEntry entries key v ↔ entry = (key, v) ∨ (entry ∈ entries ∧ entry.1 ≠ key) := by
  induction entries with
  | nil => simp [putEntry]
  | cons first entries ih =>
    obtain ⟨key', v'⟩ := first
    rw [List.map_cons, List.nodup_cons] at h
    rw [putEntry]
    split_ifs with hk
    · -- no other entry has the key
      subst hk
      have ho (hm : entry ∈ entries) : entry.1 ≠ key' :=
        fun heq => h.1 (List.mem_map.mpr ⟨entry, hm, heq⟩)
      grind
    · rw [List.mem_cons, ih h.2]
      grind

theorem nodup_putEntry {entries : List (List ℕ × Json)} (h : (entries.map Prod.fst).Nodup)
    (key : List ℕ) (v : Json) : ((putEntry entries key v).map Prod.fst).Nodup := by
  induction entries with
  | nil => simp [putEntry]
  | cons first entries ih =>
    obtain ⟨key', v'⟩ := first
    rw [List.map_cons, List.nodup_cons] at h
    rw [putEntry]
    split_ifs with hk
    · rw [← hk]
      exact List.nodup_cons.mpr h
    · refine List.nodup_cons.mpr ⟨fun hm => ?_, ih h.2⟩
      obtain ⟨entry, he, heq⟩ := List.mem_map.mp hm
      rcases (mem_putEntry h.2 key v entry).mp he with rfl | ⟨he, -⟩
      · exact hk heq.symm
      · exact h.1 (List.mem_map.mpr ⟨entry, he, heq⟩)

/-- **An object has one entry for each key, with the value of the key's last member.** -/
theorem mem_ofMembers (members : List (List ℕ × Json)) :
    ((ofMembers members).map Prod.fst).Nodup ∧ ∀ entry, entry ∈ ofMembers members ↔
      ∃ init rest, members = init ++ entry :: rest ∧ entry.1 ∉ rest.map Prod.fst := by
  induction members using List.reverseRecOn with
  | nil => simp [ofMembers]
  | append_singleton members last ih =>
    obtain ⟨hn, hm⟩ := ih
    rw [ofMembers_append]
    refine ⟨nodup_putEntry hn _ _, fun entry => ?_⟩
    rw [mem_putEntry hn, hm]
    constructor
    · rintro (rfl | ⟨⟨init, rest, rfl, hr⟩, hne⟩)
      · exact ⟨members, [], rfl, by simp⟩
      · exact ⟨init, rest ++ [last], by simp, by simp [hr, hne]⟩
    · rintro ⟨init, rest, heq, hr⟩
      rcases List.eq_nil_or_concat rest with rfl | ⟨rest, last', rfl⟩
      · exact .inl (List.append_inj_right' heq rfl |> List.head_eq_of_cons_eq).symm
      · rw [List.concat_eq_append, ← List.cons_append, ← List.append_assoc] at heq
        obtain ⟨rfl, hl⟩ := List.append_inj' heq rfl
        cases hl
        rw [List.concat_eq_append, List.map_append, List.mem_append, not_or] at hr
        exact .inr ⟨⟨init, rest, rfl, hr.1⟩, by simpa using hr.2⟩

section Whitespace

variable {w w' : List ℕ} {c : ℕ}

theorem whitespace_nil : Whitespace [] := by
  intro c hc
  cases hc

theorem Whitespace.append (hw : Whitespace w) (hw' : Whitespace w') : Whitespace (w ++ w') := by
  intro c hc
  exact (List.mem_append.mp hc).elim (hw c) (hw' c)

theorem Whitespace.snoc (hw : Whitespace w) (hc : IsWhitespace c) : Whitespace (w ++ [c]) :=
  hw.append fun _ h => List.mem_singleton.mp h ▸ hc

end Whitespace

end DartSdk.Convert.JsonGrammar
