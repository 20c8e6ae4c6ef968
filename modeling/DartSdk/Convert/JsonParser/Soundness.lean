import Mathlib.Data.List.Induction
import DartSdk.Convert.JsonGrammar
import DartSdk.Convert.JsonParser.Refinement

/-!
# The machine reads the grammar

`At text m` says what the machine knows after `text`: which containers are open, what has been read of
them, and which token is being read.  The listener has the values of what is complete.  A step keeps
`At` or throws a `FormatException` (`step_at`).
-/

namespace DartSdk.Convert

open JsonGrammar ChunkedJsonParser Throwing List Machine

/-- The containers around a place where a value, or a key, is expected, with what they have so far. -/
inductive Context : (isKey : Bool) → Type
  | top : Context false
  | list (outer : Context false) (elements : List Json) : Context false
  | key (outer : Context false) (members : List (List ℕ × Json)) : Context true
  | map (outer : Context false) (members : List (List ℕ × Json)) (key : List ℕ) : Context false

namespace Context

def place : {isKey : Bool} → Context isKey → Place
  | _, top => .initial
  | _, list _ [] => .arrayEmpty
  | _, list _ (_ :: _) => .arrayComma
  | _, key _ [] => .objectEmpty
  | _, key _ (_ :: _) => .objectComma
  | _, map _ _ _ => .objectColon

/-- The places that are saved on the stack of the parser. -/
def places : {isKey : Bool} → Context isKey → List Place
  | _, top => []
  | _, list outer _ | _, key outer _ | _, map outer _ _ => outer.place :: outer.places

def container : {isKey : Bool} → Context isKey → Option Container
  | _, top => none
  | _, list _ elements => some (.list elements)
  | _, key _ members | _, map _ members _ => some (.map (ofMembers members))

/-- The stack of the listener in a container that is opened here; none is where a key is expected. -/
def saved : {isKey : Bool} → Context isKey → List StackItem
  | _, top => [.container none]
  | _, list outer elements => .container (some (.list elements)) :: outer.saved
  | _, key _ _ => []
  | _, map outer members name =>
    .container (some (.map (ofMembers members))) :: .key (some name) :: outer.saved

def stack : {isKey : Bool} → Context isKey → List StackItem
  | _, top => []
  | _, list outer _ | _, key outer _ | _, map outer _ _ => outer.saved

/-- The current key is known before its value only. -/
def Keyed : {isKey : Bool} → Context isKey → Option (List ℕ) → Prop
  | _, map _ _ name, current => current = some name
  | _, _, _ => True

structure Holds {isKey : Bool} (c : Context isKey) (l : BuildJsonListener) : Prop where
  stack : l.stack = c.stack
  container : l.currentContainer = c.container
  key : c.Keyed l.key

end Context

variable {isKey : Bool} {outer : Context false} {text : List ℕ} {elements : List Json} {members : List (List ℕ × Json)}
  {key : List ℕ} {char : ℕ}

section Texts

/-- The text of a container before its next item: it has no items, or those that `D` derives and a
comma. -/
def Awaits {α : Type} (D : List α → List ℕ → Prop) (items : List α) (inside : List ℕ) : Prop :=
  items = [] ∧ Whitespace inside ∨
    ∃ text w, inside = text ++ 0x2C :: w ∧ D items text ∧ Whitespace w

def Elements (elements : List Json) (text : List ℕ) : Prop :=
  ∃ init v, elements = init ++ [v] ∧ Derives (.elements init v) text

def Members (members : List (List ℕ × Json)) (text : List ℕ) : Prop :=
  ∃ init key v, members = init ++ [(key, v)] ∧ Derives (.members init key v) text

/-- The text before a value or a key. -/
def Opened : {isKey : Bool} → Context isKey → List ℕ → Prop
  | _, .top, text => Whitespace text
  | _, .list outer elements, text => ∃ before inside, text = before ++ 0x5B :: inside ∧
      Opened outer before ∧ Awaits Elements elements inside
  | _, .key outer members, text => ∃ before inside, text = before ++ 0x7B :: inside ∧
      Opened outer before ∧ Awaits Members members inside
  | _, .map outer members key, text => ∃ before inside name w₁ w₂,
      text = before ++ 0x7B :: (inside ++ 0x22 :: (name ++ 0x22 :: (w₁ ++ 0x3A :: w₂))) ∧
      Opened outer before ∧ Awaits Members members inside ∧ Chars name key ∧ Whitespace w₁ ∧
      Whitespace w₂

/-- The text after a value or a key, which is a string. -/
def Closed (c : Context isKey) (v : Json) (text : List ℕ) : Prop :=
  (isKey → ∃ key, v = .string key) ∧ ∃ before valueText w, text = before ++ valueText ++ w ∧
    Opened c before ∧ Derives (.value v) valueText ∧ Whitespace w

variable {c : Context isKey} {valueText : List ℕ} {v : Json}

section

variable (hc : IsWhitespace char)

include hc

theorem Awaits.space {α : Type} {D : List α → List ℕ → Prop} {items : List α}
    (h : Awaits D items text) : Awaits D items (text ++ [char]) := by
  rcases h with ⟨hn, hw⟩ | ⟨text, w, rfl, hitems, hw⟩
  · exact .inl ⟨hn, hw.snoc hc⟩
  · exact .inr ⟨text, w ++ [char], by simp, hitems, hw.snoc hc⟩

theorem Opened.space (h : Opened c text) : Opened c (text ++ [char]) := by
  cases c with
  | top => exact Whitespace.snoc h hc
  | list outer _ | key outer _ =>
    obtain ⟨before, inside, rfl, hb, h⟩ := h
    exact ⟨before, inside ++ [char], by simp, hb, h.space hc⟩
  | map outer _ _ =>
    obtain ⟨before, inside, name, w₁, w₂, rfl, hb, h, hn, hw₁, hw₂⟩ := h
    exact ⟨before, inside, name, w₁, w₂ ++ [char], by simp, hb, h, hn, hw₁, hw₂.snoc hc⟩

theorem Closed.space (h : Closed c v text) : Closed c v (text ++ [char]) := by
  obtain ⟨hk, before, valueText, w, rfl, hb, hv, hw⟩ := h
  exact ⟨hk, before, valueText, w ++ [char], by simp, hb, hv, hw.snoc hc⟩

end

theorem Opened.string {raw s : List ℕ} (h : Opened c text) (hs : Chars raw s) :
    Closed c (.string s) (text ++ 0x22 :: (raw ++ [0x22])) :=
  ⟨fun _ => ⟨s, rfl⟩, text, _, [], by simp, h, .string hs, whitespace_nil⟩

theorem Opened.value (h : Opened outer text) (hv : Derives (.value v) valueText) :
    Closed outer v (text ++ valueText) :=
  ⟨nofun, text, valueText, [], by simp, h, hv, whitespace_nil⟩

theorem Opened.bracket (h : Opened outer text) : Opened (.list outer []) (text ++ [0x5B]) :=
  ⟨text, [], rfl, h, .inl ⟨rfl, whitespace_nil⟩⟩

theorem Opened.brace (h : Opened outer text) : Opened (.key outer []) (text ++ [0x7B]) :=
  ⟨text, [], rfl, h, .inl ⟨rfl, whitespace_nil⟩⟩

theorem Closed.colon (h : Closed (.key outer members) (.string key) text) :
    Opened (.map outer members key) (text ++ [0x3A]) := by
  obtain ⟨-, -, _, w₁, rfl, ⟨before, inside, rfl, hb, h⟩, hv, hw₁⟩ := h
  cases hv with
  | string hn =>
    exact ⟨before, inside, _, w₁, [], by simp, hb, h, hn, hw₁, whitespace_nil⟩

theorem Closed.derives_elements (h : Closed (.list outer elements) v text) :
    ∃ before inside, text = before ++ 0x5B :: inside ∧ Opened outer before ∧
      Derives (.elements elements v) inside := by
  obtain ⟨-, -, valueText, w, rfl, ⟨before, inside, rfl, hb, h⟩, hv, hw⟩ := h
  refine ⟨before, inside ++ (valueText ++ w), by simp, hb, ?_⟩
  rcases h with ⟨rfl, hw₁⟩ | ⟨text, w₁, rfl, ⟨init, last, rfl, h⟩, hw₁⟩
  · have := Derives.element hw₁ hv hw
    simpa using this
  · have := Derives.elements h hw₁ hv hw
    simpa using this

theorem Closed.derives_members (h : Closed (.map outer members key) v text) :
    ∃ before inside, text = before ++ 0x7B :: inside ∧ Opened outer before ∧
      Derives (.members members key v) inside := by
  obtain ⟨-, -, valueText, w, rfl, ⟨before, inside, name, w₁, w₂, rfl, hb, h, hn, hw₁, hw₂⟩,
    hv, hw⟩ := h
  refine ⟨before, inside ++ 0x22 :: (name ++ 0x22 :: (w₁ ++ 0x3A :: (w₂ ++ valueText ++ w))), by simp,
    hb, ?_⟩
  rcases h with ⟨rfl, hw₀⟩ | ⟨text, w₀, rfl, ⟨init, lastKey, last, rfl, h⟩, hw₀⟩
  · exact Derives.member hw₀ hn hw₁ hw₂ hv hw
  · have := Derives.members h hw₀ hn hw₁ hw₂ hv hw
    simpa using this

theorem Closed.commaList (h : Closed (.list outer elements) v text) :
    Opened (.list outer (elements ++ [v])) (text ++ [0x2C]) := by
  obtain ⟨before, inside, rfl, hb, hd⟩ := h.derives_elements
  exact ⟨before, inside ++ [0x2C], by simp, hb,
    .inr ⟨inside, [], rfl, ⟨elements, v, rfl, hd⟩, whitespace_nil⟩⟩

theorem Closed.commaMap (h : Closed (.map outer members key) v text) :
    Opened (.key outer (members ++ [(key, v)])) (text ++ [0x2C]) := by
  obtain ⟨before, inside, rfl, hb, hd⟩ := h.derives_members
  exact ⟨before, inside ++ [0x2C], by simp, hb,
    .inr ⟨inside, [], rfl, ⟨members, key, v, rfl, hd⟩, whitespace_nil⟩⟩

theorem Opened.endArray (h : Opened (.list outer []) text) :
    Closed outer (.list []) (text ++ [0x5D]) := by
  obtain ⟨_, _, rfl, hbefore, ⟨-, hw⟩ | ⟨_, _, -, ⟨_, _, hn, -⟩, -⟩⟩ := h
  · have := hbefore.value (.emptyArray hw)
    simpa using this
  · simp at hn

theorem Closed.endArray (h : Closed (.list outer elements) v text) :
    Closed outer (.list (elements ++ [v])) (text ++ [0x5D]) := by
  obtain ⟨_, _, rfl, hb, hd⟩ := h.derives_elements
  have := hb.value (.array hd)
  simpa using this

theorem Opened.endObject (h : Opened (.key outer []) text) :
    Closed outer (.map []) (text ++ [0x7D]) := by
  obtain ⟨_, _, rfl, hbefore, ⟨-, hw⟩ | ⟨_, _, -, ⟨_, _, _, hn, -⟩, -⟩⟩ := h
  · have := hbefore.value (.emptyObject hw)
    simpa using this
  · simp at hn

theorem Closed.endObject (h : Closed (.map outer members key) v text) :
    Closed outer (.map (ofMembers (members ++ [(key, v)]))) (text ++ [0x7D]) := by
  obtain ⟨_, _, rfl, hb, hd⟩ := h.derives_members
  have := hb.value (.object hd)
  simpa using this

end Texts

section Characters

variable {c d : ℕ}

theorem isDigit_xor : c ^^^ CHAR_0 ≤ 9 ↔ IsDigit c := isDigit_iff c

theorem xor_eq_zero : c ^^^ CHAR_0 = 0 ↔ c = 0x30 := by
  constructor
  · intro h
    have := xor_xor_self c CHAR_0
    rw [h, Nat.zero_xor] at this
    exact this.symm
  · rintro rfl
    rfl

theorem escapeDigit_eq (c : ℕ) : escapeDigit c = hexDigit c := by
  by_cases h : c < 0x80
  · revert c
    decide
  have hd : ¬c ^^^ 0x30 ≤ 9 := fun hle => by
    have := isDigit_xor.mp hle
    unfold IsDigit at this
    omega
  have hor : c ≤ c ||| 0x20 := Nat.left_le_or
  simp only [escapeDigit, hexDigit, if_neg hd]
  rw [if_neg (by unfold CHAR_a; omega), if_neg (by omega), if_neg (by omega), if_neg (by omega)]

theorem isExponent : c ||| 0x20 = CHAR_e ↔ c = 0x65 ∨ c = 0x45 := by
  by_cases h : c < 0x80
  · revert c
    decide
  · have hor : c ≤ c ||| 0x20 := Nat.left_le_or
    unfold CHAR_e
    omega

theorem escapedChar_eq_some : escapedChar c = some d ↔ (c, d) ∈ escapes := by
  constructor
  · intro h
    unfold escapedChar at h
    split_ifs at h with hb hf hn hr ht hs
    · cases h
      subst hb
      decide
    · cases h
      subst hf
      decide
    · cases h
      subst hn
      decide
    · cases h
      subst hr
      decide
    · cases h
      subst ht
      decide
    · cases h
      rcases hs with rfl | rfl | rfl <;> decide
  · intro h
    simp only [escapes, mem_cons, Prod.mk.injEq, not_mem_nil, or_false] at h
    rcases h with ⟨rfl, rfl⟩ | ⟨rfl, rfl⟩ | ⟨rfl, rfl⟩ | ⟨rfl, rfl⟩ | ⟨rfl, rfl⟩ | ⟨rfl, rfl⟩ |
      ⟨rfl, rfl⟩ | ⟨rfl, rfl⟩ <;> rfl

theorem isSpace_iff : c = SPACE ∨ c = CARRIAGE_RETURN ∨ c = NEWLINE ∨ c = TAB ↔ IsWhitespace c := by
  unfold IsWhitespace SPACE CARRIAGE_RETURN NEWLINE TAB
  omega

theorem decimal_eq (ds : List ℕ) : decimal ds = decimalValue ds := by
  induction ds using List.reverseRecOn with
  | nil => rfl
  | append_singleton ds c ih =>
    unfold decimalValue at ih ⊢
    rw [decimal_append, ih, reverse_append, reverse_singleton, singleton_append,
      map_cons, Nat.ofDigits_cons]
    show 10 * _ + (c - 0x30) = (c - 0x30) + 10 * _
    omega

end Characters

section Numbers

def SignedInt (part : List ℕ) : Prop :=
  ∃ minus int, (minus = [] ∨ minus = [0x2D]) ∧ IsInt int ∧ part = minus ++ int

/-- A number up to the character of its exponent. -/
def Mantissa (part : List ℕ) : Prop :=
  ∃ int frac e, SignedInt int ∧ IsFrac frac ∧ (e = 0x65 ∨ e = 0x45) ∧ part = int ++ frac ++ [e]

/-- What has been read of a number in each state. -/
def NumberPrefix (state : NumberState) (literal : List ℕ) : Prop :=
  match state with
  | .sign => literal = [0x2D]
  | .zero => ∃ minus, (minus = [] ∨ minus = [0x2D]) ∧ literal = minus ++ [0x30]
  | .digit => ∃ minus c ds, (minus = [] ∨ minus = [0x2D]) ∧ IsDigit c ∧ c ≠ 0x30 ∧
      (∀ c ∈ ds, IsDigit c) ∧ literal = minus ++ c :: ds
  | .dot => ∃ int, SignedInt int ∧ literal = int ++ [0x2E]
  | .dotDigit => ∃ int ds, SignedInt int ∧ Digits ds ∧ literal = int ++ 0x2E :: ds
  | .e => Mantissa literal
  | .eSign => ∃ m sign, Mantissa m ∧ (sign = 0x2B ∨ sign = 0x2D) ∧ literal = m ++ [sign]
  | .eDigit => ∃ m sign ds, Mantissa m ∧ (sign = [] ∨ sign = [0x2B] ∨ sign = [0x2D]) ∧ Digits ds ∧
      literal = m ++ (sign ++ ds)

variable {state state' : NumberState} {literal : List ℕ} {c : ℕ} {n : Number}

theorem digits_singleton (h : IsDigit c) : Digits [c] :=
  ⟨by simp, fun _ hc => mem_singleton.mp hc ▸ h⟩

theorem forall_isDigit_snoc {ds : List ℕ} (hds : ∀ d ∈ ds, IsDigit d) (h : IsDigit c) :
    ∀ d ∈ ds ++ [c], IsDigit d := by
  intro d hd
  rcases mem_append.mp hd with hd | hd
  · exact hds d hd
  · exact mem_singleton.mp hd ▸ h

theorem digits_snoc {ds : List ℕ} (hds : Digits ds) (h : IsDigit c) : Digits (ds ++ [c]) :=
  ⟨by simp, forall_isDigit_snoc hds.2 h⟩

theorem isInt_digits {int : List ℕ} (h : IsInt int) : Digits int := by
  cases h with
  | zero => exact digits_singleton ⟨by decide, by decide⟩
  | digits hc _ hds =>
    refine ⟨by simp, fun c hc' => ?_⟩
    rcases mem_cons.mp hc' with rfl | hc'
    · exact hc
    · exact hds c hc'

theorem numberPrefix_int (h : NumberPrefix state literal) (hs : state = .zero ∨ state = .digit) :
    SignedInt literal := by
  rcases hs with rfl | rfl
  · obtain ⟨minus, hm, rfl⟩ := h
    exact ⟨minus, [0x30], hm, .zero, rfl⟩
  · obtain ⟨minus, c, ds, hm, hc, hne, hds, rfl⟩ := h
    exact ⟨minus, c :: ds, hm, .digits hc hne hds, rfl⟩

/-- **A character that belongs to the number.** -/
theorem NumberPrefix.next (h : NumberPrefix state literal) (hn : state.step c = .next state') :
    NumberPrefix state' (literal ++ [c]) := by
  -- After the digits of an integer.
  have hp (hst : state = .zero ∨ state = .digit) (hn : (if c = DECIMALPOINT then
      NumberStep.next .dot else if c ||| 0x20 = CHAR_e then .next .e else .stop) = .next state') :
      NumberPrefix state' (literal ++ [c]) := by
    have hint := numberPrefix_int h hst
    split_ifs at hn with hdt he
    · cases hn
      exact ⟨literal, hint, by rw [hdt]; rfl⟩
    · cases hn
      exact ⟨literal, [], c, hint, .none, isExponent.mp he, by simp⟩
  cases state <;> simp only [NumberState.step] at hn
  case sign =>
    obtain rfl : literal = [0x2D] := h
    split_ifs at hn with hd hz
    · cases hn
      exact ⟨[0x2D], .inr rfl, by rw [xor_eq_zero.mp hz]⟩
    · cases hn
      exact ⟨[0x2D], c, [], .inr rfl, isDigit_xor.mp hd, mt xor_eq_zero.mpr hz, by simp, rfl⟩
  case zero =>
    split_ifs at hn with hd hdt he
    · exact hp (.inl rfl) (by rw [if_pos hdt, hn])
    · exact hp (.inl rfl) (by rw [if_neg hdt, if_pos he, hn])
  case digit =>
    split_ifs at hn with hd hdt he
    · cases hn
      obtain ⟨minus, c', ds, hmn, hc', hne, hds, rfl⟩ := h
      exact ⟨minus, c', ds ++ [c], hmn, hc', hne, forall_isDigit_snoc hds (isDigit_xor.mp hd), by simp⟩
    · exact hp (.inr rfl) (by rw [if_pos hdt, hn])
    · exact hp (.inr rfl) (by rw [if_neg hdt, if_pos he, hn])
  case dot =>
    obtain ⟨int, hint, rfl⟩ := h
    split_ifs at hn with hd
    cases hn
    exact ⟨int, [c], hint, digits_singleton (isDigit_xor.mp hd), by simp⟩
  case dotDigit =>
    obtain ⟨int, ds, hint, hds, rfl⟩ := h
    split_ifs at hn with hd he
    · cases hn
      exact ⟨int, ds ++ [c], hint, digits_snoc hds (isDigit_xor.mp hd), by simp⟩
    · cases hn
      exact ⟨int, 0x2E :: ds, c, hint, .digits hds, isExponent.mp he, rfl⟩
  case e =>
    split_ifs at hn with hs hd
    · cases hn
      exact ⟨literal, c, h, hs, rfl⟩
    · cases hn
      exact ⟨literal, [], [c], h, .inl rfl, digits_singleton (isDigit_xor.mp hd), rfl⟩
  case eSign =>
    obtain ⟨m, sign, hm, hs, rfl⟩ := h
    split_ifs at hn with hd
    cases hn
    refine ⟨m, [sign], [c], hm, .inr ?_, digits_singleton (isDigit_xor.mp hd), by simp⟩
    simpa using hs
  case eDigit =>
    obtain ⟨m, sign, ds, hm, hs, hds, rfl⟩ := h
    split_ifs at hn with hd
    cases hn
    exact ⟨m, sign, ds ++ [c], hm, hs, digits_snoc hds (isDigit_xor.mp hd), by simp⟩

theorem numeral_int {minus int : List ℕ} (hm : minus = [] ∨ minus = [0x2D]) (h : IsInt int) :
    Numeral (minus ++ int) (.int (parseInt (minus ++ int))) := by
  have hd : ∀ c ∈ int, c ^^^ CHAR_0 ≤ 9 := fun c hc => isDigit_xor.mpr ((isInt_digits h).2 c hc)
  rcases hm with rfl | rfl
  · rw [parseInt_signed (.inl ⟨rfl, rfl⟩) (isInt_digits h).1 hd, Int.one_mul, decimal_eq]
    exact .nonneg h
  have hv := parseInt_signed (.inr ⟨rfl, rfl⟩) (isInt_digits h).1 hd
  rw [Int.neg_mul, Int.one_mul, decimal_eq] at hv
  show Numeral _ (.int (parseInt ([MINUS] ++ int)))
  rw [hv]
  exact .neg h

/-- **A number that is complete.** -/
theorem NumberPrefix.numeral (h : NumberPrefix state literal) (hn : state.value literal = some n) :
    Numeral literal n := by
  cases state with
  | zero =>
    obtain ⟨minus, hm, rfl⟩ := h
    cases hn
    have hv := numeral_int hm .zero
    have hz : parseInt (minus ++ [0x30]) = 0 := by
      rcases hm with rfl | rfl <;> decide
    rwa [hz] at hv
  | digit =>
    cases hn
    obtain ⟨minus, int, hm, hint, rfl⟩ := numberPrefix_int h (.inr rfl)
    exact numeral_int hm hint
  | dotDigit =>
    cases hn
    obtain ⟨_, ds, ⟨minus, int, hm, hint, rfl⟩, hds, rfl⟩ := h
    have := Numeral.double hm hint (.digits hds) .none (by simp)
    simpa using this
  | eDigit =>
    cases hn
    obtain ⟨_, sign, ds, ⟨_, _, e, ⟨minus, int, hm, hint, rfl⟩, hfrac, he, rfl⟩, hsign, hds, rfl⟩ := h
    have := Numeral.double hm hint hfrac (.digits he hsign hds) (by simp)
    simpa using this
  | _ => cases hn

end Numbers

variable {l : BuildJsonListener}

section Listener

variable {c : Context isKey}

theorem Context.Holds.value (h : c.Holds l) (v : Json) : c.Holds { l with value := v } :=
  ⟨h.stack, h.container, h.key⟩

theorem Context.Holds.pushContainer (h : outer.Holds l) : l.pushContainer.stack = outer.saved := by
  obtain ⟨hs, hcn, hk⟩ := h
  unfold BuildJsonListener.pushContainer
  cases outer with
  | top =>
    rw [hcn, show l.stack = [] from hs]
    rfl
  | list outer _ =>
    rw [hcn, show l.stack = outer.saved from hs]
    rfl
  | map outer _ key =>
    rw [hcn, show l.stack = outer.saved from hs, show l.key = some key from hk]
    rfl

theorem Context.Holds.beginArray (h : outer.Holds l) :
    (Context.list outer []).Holds { l.pushContainer with currentContainer := some (.list []) } :=
  ⟨h.pushContainer, rfl, trivial⟩

theorem Context.Holds.beginObject (h : outer.Holds l) :
    (Context.key outer []).Holds { l.pushContainer with currentContainer := some (.map []) } :=
  ⟨h.pushContainer, rfl, trivial⟩

theorem popContainer_eq {container : Container} (hs : l.stack = outer.saved)
    (hcn : l.currentContainer = some container) :
    ∃ l', l.popContainer = .ok l' ∧ outer.Holds l' ∧ l'.value = container.toJson := by
  unfold BuildJsonListener.popContainer
  rw [hs, hcn]
  cases outer with
  | top | list outer _ => exact ⟨_, rfl, ⟨rfl, rfl, trivial⟩, rfl⟩
  | map outer _ _ => exact ⟨_, rfl, ⟨rfl, rfl, rfl⟩, rfl⟩

theorem Context.Holds.propertyName (h : (Context.key outer members).Holds l)
    (hv : l.value = .string key) :
    ∃ l', l.propertyName = .ok l' ∧ (Context.map outer members key).Holds l' := by
  unfold BuildJsonListener.propertyName
  rw [hv]
  exact ⟨_, rfl, h.stack, h.container, rfl⟩

theorem Context.Holds.propertyValue (h : (Context.map outer members key).Holds l) :
    ∃ l', l.propertyValue = .ok l' ∧ (Context.key outer (members ++ [(key, l.value)])).Holds l' := by
  unfold BuildJsonListener.propertyValue
  rw [show l.currentContainer = some (.map (ofMembers members)) from h.container,
    show l.key = some key from h.key]
  refine ⟨_, rfl, h.stack, ?_, trivial⟩
  rw [Context.container, ofMembers_append]

theorem Context.Holds.arrayElement (h : (Context.list outer elements).Holds l) :
    ∃ l', l.arrayElement = .ok l' ∧ (Context.list outer (elements ++ [l.value])).Holds l' := by
  unfold BuildJsonListener.arrayElement
  rw [show l.currentContainer = some (.list elements) from h.container]
  exact ⟨_, rfl, h.stack, rfl, trivial⟩

end Listener

/-- The result has the property, or a `FormatException` is thrown. -/
abbrev Accepts {α : Type} (x : Except ThrownType α) (P : α → Prop) : Prop :=
  Returns x P (· = .formatException)

variable {m : JsonMachine}

section Strings

def InString : Token StringBuffer → List ℕ → Prop
  | .plain b, raw => Chars raw b.characters
  | .escape b, raw => ∃ before, raw = before ++ [0x5C] ∧ Chars before b.characters
  | .unicode b count value, raw => ∃ before digits, raw = before ++ 0x5C :: 0x75 :: digits ∧
      Chars before b.characters ∧ Hex digits value ∧ digits.length = count
  | _, _ => False

variable {raw digits : List ℕ} {c value : ℕ}

theorem Hex.lt (h : Hex digits value) : value < 16 ^ digits.length := by
  induction h with
  | nil => decide
  | @digit _ value c digit h hc ih =>
    have hd : digit < 16 := by
      unfold hexDigit at hc
      split_ifs at hc <;> cases hc <;> omega
    rw [length_append, length_singleton, Nat.pow_succ]
    omega

theorem utf16_of_lt (h : c < 0x10000) : Unicode.utf16 c = [c] := by
  unfold Unicode.utf16
  rw [if_pos (by omega)]

theorem escapes_lt {d : ℕ} (h : (c, d) ∈ escapes) : d < 0x10000 := by
  simp only [escapes, mem_cons, Prod.mk.injEq, not_mem_nil, or_false] at h
  omega

/-- **A character of a string**: the string goes on, or it is complete. -/
theorem string_step {token : Token StringBuffer} (h : InString token raw) :
    Accepts ((m.withToken token).step c)
      (fun m' => (∃ token', InString token' (raw ++ [c]) ∧ m' = m.withToken token') ∨
        ∃ s, c = 0x22 ∧ Chars raw s ∧
          m' = ⟨m.place, m.stack, .none, { m.listener with value := .string s }⟩) := by
  cases token with
  | plain b =>
    show Returns ((m.withToken (.plain b)).readPlain b c) _ _
    unfold readPlain
    split_ifs with hs hq hb
    · rfl
    · exact .inr ⟨b.characters, hq, h, rfl⟩
    · exact .inl ⟨.escape b, ⟨raw, by rw [hb]; rfl, h⟩, rfl⟩
    · exact .inl ⟨.plain ⟨b.characters ++ [c]⟩, .plain h (Nat.le_of_not_lt hs) hq hb,
        rfl⟩
  | escape b =>
    obtain ⟨before, rfl, hch⟩ := h
    show Returns ((m.withToken (.escape b)).readEscape b c) _ _
    unfold readEscape
    split
    · rename_i d hd
      have hm := escapedChar_eq_some.mp hd
      refine .inl ⟨.plain ⟨b.characters ++ Unicode.utf16 d⟩, ?_, rfl⟩
      rw [utf16_of_lt (escapes_lt hm), append_assoc]
      exact .escape hch hm
    split_ifs with hu
    · refine .inl ⟨.unicode b 0 0, ⟨before, [], ?_, hch, .nil, rfl⟩, rfl⟩
      rw [hu, append_assoc]
      rfl
    · rfl
  | unicode b count value =>
    obtain ⟨before, digits, rfl, hch, hh, hl⟩ := h
    show Returns ((m.withToken (.unicode b count value)).readUnicode b count value c) _ _
    unfold readUnicode
    rw [escapeDigit_eq]
    split
    · rfl
    rename_i digit hdg
    have hh' := hh.digit hdg
    have hl' : (digits ++ [c]).length = count + 1 := by
      rw [length_append, hl, length_singleton]
    split_ifs with hcn
    · refine .inl ⟨.unicode b ⟨count + 1, hcn⟩ (16 * value + digit), ?_, rfl⟩
      exact ⟨before, digits ++ [c], by simp, hch, hh', hl'⟩
    have hf : (digits ++ [c]).length = 4 := by omega
    have hlt := Hex.lt hh'
    rw [hf] at hlt
    refine .inl ⟨.plain ⟨b.characters ++ Unicode.utf16 (16 * value + digit)⟩, ?_, rfl⟩
    show Chars _ (b.characters ++ Unicode.utf16 _)
    rw [utf16_of_lt hlt]
    have := Chars.unicode hch hh' hf
    simpa using this
  | none | number _ _ | keyword _ count => cases h

end Strings

section Values

variable {c : Context false} {l' : BuildJsonListener}

def Keyword.json : Keyword → Json
  | null => .null
  | true => .bool Bool.true
  | false => .bool Bool.false

theorem Keyword.derives (kind : Keyword) : Derives (.value kind.json) kind.chars := by
  cases kind with
  | null => exact .null
  | true => exact .true
  | false => exact .false

theorem call_ok {e : JsonEvent} (h : JsonListener.call m.listener e = .ok l) :
    m.call e = .ok { m with listener := l } := by
  unfold Machine.call
  rw [h]
  rfl

theorem call_keyword (kind : Keyword) :
    m.call kind.event = .ok { m with listener := { m.listener with value := kind.json } } := by
  cases kind <;> rfl

theorem Context.place_cases (c : Context false) :
    c.place = .initial ∧ c = .top ∨ c.place = .arrayEmpty ∧ (∃ outer, c = .list outer []) ∨
      c.place = .arrayComma ∨ c.place = .objectColon := by
  cases c with
  | top => exact .inl ⟨rfl, rfl⟩
  | list outer elements =>
    cases elements with
    | nil => exact .inr (.inl ⟨rfl, outer, rfl⟩)
    | cons v elements => exact .inr (.inr (.inl rfl))
  | map outer _ _ => exact .inr (.inr (.inr rfl))

theorem Context.place_append {v : Json} :
    (Context.list outer (elements ++ [v])).place = .arrayComma := by
  cases elements <;> rfl

theorem Context.place_append_key {member : List ℕ × Json} :
    (Context.key outer (members ++ [member])).place = .objectComma := by
  cases members <;> rfl

theorem Context.allowsValue (c : Context false) : c.place.allowsValue := by
  rcases c.place_cases with ⟨h, -⟩ | ⟨h, -⟩ | h | h <;> rw [h] <;> rfl

theorem Context.allowsString (c : Context false) : c.place.allowsString := by
  rcases c.place_cases with ⟨h, -⟩ | ⟨h, -⟩ | h | h <;> rw [h] <;> rfl

/-- What the machine knows after `text`. -/
inductive At : List ℕ → JsonMachine → Prop
  | opened {isKey : Bool} {c : Context isKey} {text : List ℕ} {l : BuildJsonListener} (hl : c.Holds l)
    (h : Opened c text) : At text ⟨c.place, c.places, .none, l⟩
  | closed {isKey : Bool} {c : Context isKey} {text : List ℕ} {l : BuildJsonListener} (hl : c.Holds l)
    (h : Closed c l.value text) : At text ⟨c.place.after, c.places, .none, l⟩
  | string {isKey : Bool} {c : Context isKey} {text raw : List ℕ} {token : Token StringBuffer}
    {l : BuildJsonListener} (hl : c.Holds l) (h : Opened c text) (hraw : InString token raw) :
    At (text ++ 0x22 :: raw) ⟨c.place.after, c.places, token, l⟩
  | number {c : Context false} {text literal : List ℕ} {state : NumberState} {l : BuildJsonListener}
    (hl : c.Holds l) (h : Opened c text) (hliteral : NumberPrefix state literal) :
    At (text ++ literal) ⟨c.place.after, c.places, .number state literal, l⟩
  | keyword {c : Context false} {text : List ℕ} {kind : Keyword} {count : ℕ} {l : BuildJsonListener}
    (hl : c.Holds l) (h : Opened c text) (hcount : count < kind.chars.length) :
    At (text ++ kind.chars.take count) ⟨c.place.after, c.places, .keyword kind count, l⟩

theorem beginToken_true {begin : JsonMachine →
    Except ThrownType (JsonMachine)} {allowed : Bool}
    (h : allowed) : m.beginToken allowed begin = begin { m with place := m.place.after } :=
  if_pos h

variable {P : JsonMachine → Prop}

/-- What has to be shown for the characters between values, and for a string. -/
structure Between (m : JsonMachine) (char : ℕ) (P : JsonMachine → Prop) : Prop where
  space : IsWhitespace char → P m
  colon : char = 0x3A → Accepts m.readColon P
  comma : char = 0x2C → Accepts m.readComma P
  endArray : char = 0x5D →
    Accepts (m.closeContainer .arrayEmpty .arrayValue .arrayElement .endArray) P
  endObject : char = 0x7D →
    Accepts (m.closeContainer .objectEmpty .objectValue .propertyValue .endObject) P
  quote : char = 0x22 → Accepts (m.beginToken m.place.allowsString fun m =>
    .ok (m.withToken (.plain ⟨[]⟩))) P

theorem start_rule (hb : Between m char P)
    (hbr : char = 0x5B → Accepts (m.openContainer .beginArray .arrayEmpty) P)
    (hbc : char = 0x7B → Accepts (m.openContainer .beginObject .objectEmpty) P)
    (hk : ∀ kind : Keyword, kind.chars.take 1 = [char] →
      Accepts (m.beginToken m.place.allowsValue fun m => .ok (m.withToken (.keyword kind 1))) P)
    (hn : Accepts (m.beginToken m.place.allowsValue fun m => m.beginNumber char) P) :
    Accepts (m.start char) P := by
  unfold start
  split
  next h => exact hb.space (isSpace_iff.mp h)
  split
  next h => exact hb.quote h
  split
  next h => exact hbr h
  split
  next h => exact hbc h
  split
  next h => exact hk .null (by rw [h]; rfl)
  split
  next h => exact hk .false (by rw [h]; rfl)
  split
  next h => exact hk .true (by rw [h]; rfl)
  split
  next h => exact hb.colon h
  split
  next h => exact hb.comma h
  split
  next h => exact hb.endArray h
  split
  next h => exact hb.endObject h
  exact hn

/-- Where no value is expected, the characters between values are read, and a key if there may be one. -/
theorem Between.start (hb : Between m char P) (hp : m.place.allowsValue = false) :
    Accepts (m.start char) P := by
  have ht : ∀ {begin}, Accepts (m.beginToken m.place.allowsValue begin) P := by
    intro begin
    rw [hp]
    rfl
  have ho : ∀ {event place}, Accepts (m.openContainer event place) P := by
    intro event place
    unfold Machine.openContainer
    rw [hp]
    rfl
  exact start_rule hb (fun _ => ho) (fun _ => ho) (fun _ _ => ht) ht

theorem beginNumber_at {place : Place} (hl : c.Holds l) (h : Opened c text)
    (hp : place = c.place.after) :
    Accepts ((⟨place, c.places, .none, l⟩ : JsonMachine).beginNumber char)
      (At (text ++ [char])) := by
  subst hp
  unfold beginNumber
  split_ifs with hm hd hz
  · exact .number hl h (congrArg (fun c => [c]) hm)
  · exact .number hl h ⟨[], .inl rfl, congrArg (fun c => [c]) (xor_eq_zero.mp hz)⟩
  · exact .number hl h ⟨[], char, [], .inl rfl, isDigit_xor.mp hd, mt xor_eq_zero.mpr hz,
      by simp, rfl⟩
  · rfl

theorem restore_at {place : Place} {event : JsonEvent} {container : Container}
    (he : JsonListener.call l event = l.popContainer) (hs : l.stack = c.saved)
    (hcn : l.currentContainer = some container) (h : Closed c container.toJson text) :
    Accepts ((⟨place, c.place :: c.places, .none, l⟩ : JsonMachine).call event >>= restore)
      (At text) := by
  obtain ⟨_, hp, hl', hv⟩ := popContainer_eq hs hcn
  rw [call_ok (he.trans hp)]
  refine At.closed hl' ?_
  rw [hv]
  exact h

theorem closeContainer_opened (hl : c.Holds l) (h : Opened c text) :
    Accepts ((⟨c.place, c.places, .none, l⟩ : JsonMachine).closeContainer
      .arrayEmpty .arrayValue .arrayElement .endArray) (At (text ++ [0x5D])) := by
  unfold Machine.closeContainer
  rcases c.place_cases with ⟨hp, -⟩ | ⟨hp, _, rfl⟩ | hp | hp
  · rw [hp]
    rfl
  · rw [if_pos hp]
    exact restore_at rfl hl.stack hl.container h.endArray
  · rw [hp]
    rfl
  · rw [hp]
    rfl

theorem start_opened (hl : c.Holds l) (h : Opened c text) :
    Accepts ((⟨c.place, c.places, .none, l⟩ : JsonMachine).start char) (At (text ++ [char])) := by
  refine start_rule ⟨?_, ?_, ?_, ?_, ?_, ?_⟩ ?_ ?_ ?_ ?_
  · intro hs
    exact .opened hl (h.space hs)
  · intro _
    rcases c.place_cases with ⟨h, -⟩ | ⟨h, -⟩ | h | h <;> rw [h] <;> rfl
  · intro _
    rcases c.place_cases with ⟨h, -⟩ | ⟨h, -⟩ | h | h <;> rw [h] <;> rfl
  · rintro rfl
    exact closeContainer_opened hl h
  · intro _
    rcases c.place_cases with ⟨h, -⟩ | ⟨h, -⟩ | h | h <;> rw [h] <;> rfl
  · rintro rfl
    rw [beginToken_true c.allowsString]
    exact .string hl h Chars.nil
  · rintro rfl
    unfold Machine.openContainer
    rw [if_pos c.allowsValue]
    exact .opened hl.beginArray h.bracket
  · rintro rfl
    unfold Machine.openContainer
    rw [if_pos c.allowsValue]
    exact .opened hl.beginObject h.brace
  · intro kind hk
    rw [beginToken_true c.allowsValue, ← hk]
    exact .keyword hl h (by cases kind <;> decide)
  · rw [beginToken_true c.allowsValue]
    exact beginNumber_at hl h rfl

theorem start_key (hl : (Context.key outer members).Holds l) (h : Opened (.key outer members) text) :
    Accepts ((⟨(Context.key outer members).place, outer.place :: outer.places, .none, l⟩ :
      JsonMachine).start char) (At (text ++ [char])) := by
  have hs (hs : IsWhitespace char) := At.opened hl (h.space hs)
  cases members with
  | nil =>
    refine Between.start ⟨hs, fun _ => rfl, fun _ => rfl, fun _ => rfl, ?_, ?_⟩ rfl
    · rintro rfl
      exact restore_at rfl hl.stack hl.container h.endObject
    · rintro rfl
      exact .string hl h Chars.nil
  | cons member members =>
    refine Between.start ⟨hs, fun _ => rfl, fun _ => rfl, fun _ => rfl, fun _ => rfl, ?_⟩ rfl
    rintro rfl
    exact .string hl h Chars.nil

theorem start_closed {c : Context isKey} (hl : c.Holds l) (h : Closed c l.value text) :
    Accepts ((⟨c.place.after, c.places, .none, l⟩ : JsonMachine).start char)
      (At (text ++ [char])) := by
  have hs : IsWhitespace char → At (text ++ [char]) ⟨c.place.after, c.places, .none, l⟩ :=
    fun hs => .closed hl (h.space hs)
  cases c with
  | top =>
    exact Between.start ⟨hs, fun _ => rfl, fun _ => rfl, fun _ => rfl, fun _ => rfl, fun _ => rfl⟩ rfl
  | list outer elements =>
    have ha : (Context.list outer elements).place.after = .arrayValue := by
      cases elements <;> rfl
    obtain ⟨l', he, hl'⟩ := hl.arrayElement
    rw [ha] at hs ⊢
    refine Between.start ⟨hs, fun _ => rfl, ?_, ?_, fun _ => rfl, fun _ => rfl⟩ rfl
    · rintro rfl
      show Returns (Machine.call _ .arrayElement >>= _) _ _
      rw [call_ok he]
      have hat := At.opened hl' h.commaList
      rwa [Context.place_append] at hat
    · rintro rfl
      show Returns ((Machine.call _ .arrayElement >>= _) >>= _) _ _
      rw [call_ok he]
      exact restore_at rfl hl'.stack hl'.container h.endArray
  | map outer _ _ =>
    obtain ⟨l', hp, hl'⟩ := hl.propertyValue
    refine Between.start ⟨hs, fun _ => rfl, ?_, fun _ => rfl, ?_, fun _ => rfl⟩ rfl
    · rintro rfl
      show Returns (Machine.call _ .propertyValue >>= _) _ _
      rw [call_ok hp]
      have hat := At.opened hl' h.commaMap
      rwa [Context.place_append_key] at hat
    · rintro rfl
      show Returns ((Machine.call _ .propertyValue >>= _) >>= _) _ _
      rw [call_ok hp]
      exact restore_at rfl hl'.stack hl'.container h.endObject
  | key outer members =>
    have ha : (Context.key outer members).place.after = .objectKey := by
      cases members <;> rfl
    obtain ⟨key, hv⟩ := h.1 rfl
    rw [ha] at hs ⊢
    refine Between.start ⟨hs, ?_, fun _ => rfl, fun _ => rfl, fun _ => rfl, fun _ => rfl⟩ rfl
    rintro rfl
    obtain ⟨_, hn, hl'⟩ := hl.propertyName hv
    show Returns (Machine.call _ .propertyName >>= _) _ _
    rw [call_ok hn]
    rw [hv] at h
    exact .opened hl' h.colon

theorem finish_number {literal : List ℕ} {state : NumberState} (hl : c.Holds l) (h : Opened c text)
    (hlt : NumberPrefix state literal) :
    Accepts (finish (⟨c.place.after, c.places, .number state literal, l⟩ : JsonMachine))
      (fun m => ∃ l', m = ⟨c.place.after, c.places, .none, l'⟩ ∧ c.Holds l' ∧
        Closed c l'.value (text ++ literal)) := by
  unfold finish
  dsimp only
  split
  next n hn =>
    exact ⟨{ l with value := .number n }, rfl, hl.value _, h.value (.number (hlt.numeral hn))⟩
  next => rfl

theorem keyword_step {kind : Keyword} {count : ℕ} (hl : c.Holds l) (h : Opened c text)
    (hcn : count < kind.chars.length) :
    Accepts (readKeyword (⟨c.place.after, c.places, .keyword kind count, l⟩ :
      JsonMachine) kind count char) (At (text ++ kind.chars.take count ++ [char])) := by
  unfold readKeyword
  rw [getElem?_eq_getElem hcn]
  dsimp only
  split_ifs with hch hn
  · rfl
  · rw [not_not.mp hch, append_assoc, take_append_getElem]
    exact .keyword hl h hn
  · have hls : kind.chars.take (count + 1) = kind.chars := take_of_length_le (by omega)
    rw [not_not.mp hch, append_assoc, take_append_getElem, hls, call_keyword]
    exact .closed (hl.value _) (h.value kind.derives)

/-- **A step keeps what the machine knows, or the text goes wrong with this character.** -/
theorem step_at (h : At text m) :
    Accepts (m.step char) (At (text ++ [char])) := by
  cases h with
  | @opened isKey c _ _ hl h =>
    cases isKey with
    | false => exact start_opened hl h
    | true =>
      cases c
      exact start_key hl h
  | closed hl h => exact start_closed hl h
  | @string _ c text raw token l hl h hr =>
    refine (string_step (m := ⟨c.place.after, c.places, token, l⟩) hr).mono ?_ fun _ h => h
    rintro m' (⟨token', ht', rfl⟩ | ⟨s, rfl, hs, rfl⟩)
    · rw [append_assoc]
      exact .string hl h ht'
    · rw [append_assoc]
      exact .closed (hl.value _) (h.string hs)
  | @number c text _ _ l hl h hlt =>
    unfold step
    dsimp only
    split
    next state' hn =>
      rw [append_assoc]
      exact .number hl h (hlt.next hn)
    next =>
      refine (finish_number hl h hlt).bind ?_
      rintro m' ⟨_, rfl, hl', hclosed⟩
      exact start_closed hl' hclosed
    next => rfl
  | keyword hl h hcn => exact keyword_step hl h hcn

theorem run_at {text' : List ℕ} (h : At text m) :
    Accepts (m.run text') (At (text ++ text')) := by
  induction text' generalizing text m with
  | nil =>
    rw [append_nil]
    exact h
  | cons c text' ih =>
    rw [run_cons]
    refine (step_at h).bind fun m' hm' => ?_
    have := ih hm'
    rwa [append_assoc] at this

theorem Closed.finished {c : Context isKey} (h : Closed c l.value text) :
    Accepts (if c.place.after = .finished then .ok l else .error ThrownType.formatException)
      (fun l => Denotes text l.value) := by
  split_ifs with hp
  · cases c with
    | top => exact h.2
    | list outer items | key outer items => cases items <;> cases hp
    | map outer _ _ => cases hp
  · rfl

theorem close_at (h : At text m) :
    Accepts m.close (fun l => Denotes text l.value) := by
  cases h with
  | @opened isKey c text l hl h =>
    cases c with
    | top | map _ _ _ => rfl
    | list _ items | key _ items => cases items <;> rfl
  | closed hl h => exact h.finished
  | @string _ c text raw token l hl h hr => cases token <;> first | rfl | cases hr
  | number hl h hlt =>
    refine (finish_number hl h hlt).bind ?_
    rintro _ ⟨_, rfl, -, hclosed⟩
    exact hclosed.finished
  | keyword hl h _ => rfl

/-- **What is accepted is a JSON text, and there is no other exception.** -/
theorem parseJson_returns (text : List ℕ) :
    Accepts (outcome (parseJson text)) (Denotes text) := by
  rw [outcome_parseJson]
  refine Returns.map (Returns.bind (run_at (.opened (c := .top) ⟨rfl, rfl, trivial⟩ whitespace_nil)) ?_)
  intro m hm
  exact close_at hm

end Values

end DartSdk.Convert
