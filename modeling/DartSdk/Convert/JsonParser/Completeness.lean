import DartSdk.Convert.JsonParser.Soundness

/-!
# The machine accepts the grammar

By induction on how a text is derived: in any context the machine reads it and has its value.  A number
ends with the character after it, so after a value its token may be pending (`Pending`).

* `parseJson_decides`: `parseJson` gives a value if and only if the text denotes it, and otherwise a
  `FormatException`.
-/

namespace DartSdk.Convert

open JsonGrammar ChunkedJsonParser Throwing List Machine

variable {m m' : JsonMachine} {text w : List ℕ} {char : ℕ}

section Running

variable {m'' : JsonMachine} {text' : List ℕ}

theorem run_append_ok (h : m.run text = .ok m') (h' : m'.run text' = .ok m'') :
    m.run (text ++ text') = .ok m'' := by
  rw [run_append, h]
  exact h'

theorem run_cons_ok (h : m.step char = .ok m') (h' : m'.run text = .ok m'') :
    m.run (char :: text) = .ok m'' := by
  rw [run_cons, h]
  exact h'

theorem run_singleton (h : m.step char = .ok m') : m.run [char] = .ok m' := run_cons_ok h rfl

theorem start_space (h : IsWhitespace char) : m.start char = .ok m := by
  unfold start
  rw [if_pos (isSpace_iff.mpr h)]

theorem start_quote : m.start 0x22 =
    m.beginToken m.place.allowsString fun m => .ok (m.withToken (.plain ⟨[]⟩)) := rfl

theorem start_keyword (kind : Keyword) (h : kind.chars.head? = some char) : m.start char =
    m.beginToken m.place.allowsValue fun m => .ok (m.withToken (.keyword kind 1)) := by
  cases kind <;> cases h <;> rfl

theorem run_whitespace (h : m.token = .none) (hw : Whitespace w) : m.run w = .ok m := by
  induction w with
  | nil => rfl
  | cons c w ih =>
    refine run_cons_ok ?_ (ih fun c hc => hw c (mem_cons_of_mem _ hc))
    unfold step
    rw [h]
    exact start_space (hw c mem_cons_self)

end Running

variable {c : ℕ}

section Strings

variable {b : StringBuffer} {raw s digits : List ℕ} {value : ℕ}

theorem run_hex (h : Hex digits value) (hl : digits.length < 4) :
    (m.withToken (.unicode b 0 0)).run digits =
      .ok (m.withToken (.unicode b ⟨digits.length, hl⟩ value)) := by
  induction h with
  | nil => rfl
  | @digit digits value c digit h hc ih =>
    have hl' : digits.length + 1 < 4 := by simpa using hl
    refine run_append_ok (ih (by omega)) (run_singleton ?_)
    show readUnicode _ b ⟨digits.length, _⟩ value c = _
    unfold readUnicode
    rw [escapeDigit_eq, hc]
    simp [hl']

theorem run_chars (h : Chars raw s) :
    (m.withToken (.plain ⟨[]⟩)).run raw = .ok (m.withToken (.plain ⟨s⟩)) := by
  induction h with
  | nil => rfl
  | @plain raw s c h hc hq hb ih =>
    refine run_append_ok ih (run_singleton ?_)
    show readPlain _ _ c = _
    unfold readPlain
    have hs : ¬c < SPACE := Nat.not_lt.mpr hc
    have hq' : c ≠ QUOTE := hq
    have hb' : c ≠ BACKSLASH := hb
    rw [if_neg hs, if_neg hq', if_neg hb']
    rfl
  | @escape raw s c d h hc ih =>
    refine run_append_ok ih (run_cons_ok rfl (run_singleton ?_))
    show readEscape _ _ c = _
    unfold readEscape
    rw [escapedChar_eq_some.mpr hc]
    show Except.ok (m.withToken (.plain ⟨s ++ Unicode.utf16 d⟩)) = _
    rw [utf16_of_lt (escapes_lt hc)]
  | @unicode raw s digits value h hd hl ih =>
    have hlt := Hex.lt hd
    rw [hl] at hlt
    refine run_append_ok ih (run_cons_ok rfl (run_cons_ok rfl ?_))
    cases hd with
    | nil => cases hl
    | @digit digits value c digit h hc =>
      have hl' : digits.length = 3 := by simpa using hl
      refine run_append_ok (run_hex h (by omega)) (run_singleton ?_)
      show readUnicode _ (⟨s⟩ : StringBuffer) ⟨digits.length, _⟩ value c = _
      unfold readUnicode
      rw [escapeDigit_eq, hc]
      simp only [hl']
      show Except.ok (m.withToken (.plain ⟨s ++ Unicode.utf16 (16 * value + digit)⟩)) = _
      rw [utf16_of_lt hlt]

theorem run_string (h : Chars raw s) (hm : m.token = .none) (hp : m.place.allowsString) :
    m.run (0x22 :: (raw ++ [0x22])) =
      .ok ⟨m.place.after, m.stack, .none, { m.listener with value := .string s }⟩ := by
  have hs : m.step 0x22 =
      .ok (({ m with place := m.place.after } : JsonMachine).withToken (.plain ⟨[]⟩)) := by
    unfold step
    rw [hm]
    rw [start_quote, beginToken_true hp]
  exact run_cons_ok hs (run_append_ok (run_chars h) (run_singleton rfl))

end Strings

section Numbers

variable {literal ds : List ℕ} {state state' : NumberState} {n : Number}

/-- The literal is read from any place where a value is expected. -/
def ReadsNumber (literal : List ℕ) (state : NumberState) : Prop :=
  ∀ m : JsonMachine, m.token = .none → m.place.allowsValue = true →
    m.run literal = .ok ⟨m.place.after, m.stack, .number state literal, m.listener⟩

theorem ReadsNumber.next (h : ReadsNumber literal state) (hc : state.step c = .next state') :
    ReadsNumber (literal ++ [c]) state' := by
  intro m hm hp
  refine run_append_ok (h m hm hp) (run_singleton ?_)
  unfold step
  dsimp only
  rw [hc]

theorem start_digit (h : IsDigit c) :
    m.start c = m.beginToken m.place.allowsValue fun m => m.beginNumber c := by
  obtain ⟨hge, hle⟩ := h
  unfold start SPACE CARRIAGE_RETURN NEWLINE TAB QUOTE LBRACKET LBRACE CHAR_n CHAR_f CHAR_t COLON COMMA
    RBRACKET RBRACE
  rw [if_neg (by omega), if_neg (by omega), if_neg (by omega), if_neg (by omega), if_neg (by omega),
    if_neg (by omega), if_neg (by omega), if_neg (by omega), if_neg (by omega), if_neg (by omega),
    if_neg (by omega)]

theorem readsNumber_minus : ReadsNumber [0x2D] .sign := by
  intro m hm hp
  refine run_singleton ?_
  unfold step
  rw [hm]
  show m.beginToken m.place.allowsValue (fun m => m.beginNumber 0x2D) = _
  rw [beginToken_true hp]
  rfl

/-- The first digit is read in the same way after a sign and without one. -/
theorem readsNumber_first {minus : List ℕ} (hmn : minus = [] ∨ minus = [0x2D]) (h : IsDigit c) :
    ReadsNumber (minus ++ [c]) (if c = 0x30 then .zero else .digit) := by
  have hd := isDigit_xor.mpr h
  have hz : (if c ^^^ CHAR_0 = 0 then NumberState.zero else .digit) =
      if c = 0x30 then .zero else .digit := by
    simp only [xor_eq_zero]
  rcases hmn with rfl | rfl
  · intro m hm hp
    refine run_singleton ?_
    have hs : c ≠ MINUS := by
      obtain ⟨hge, -⟩ := h
      unfold MINUS
      omega
    unfold step
    rw [hm]
    rw [start_digit h, beginToken_true hp]
    unfold beginNumber
    rw [if_neg hs, if_pos hd, hz]
    rfl
  · refine readsNumber_minus.next ?_
    unfold NumberState.step
    rw [if_pos hd, hz]

theorem ReadsNumber.digits (h : ReadsNumber literal state)
    (hs : ∀ c, IsDigit c → state.step c = .next state) (hds : ∀ c ∈ ds, IsDigit c) :
    ReadsNumber (literal ++ ds) state := by
  induction ds generalizing literal with
  | nil =>
    rw [append_nil]
    exact h
  | cons c ds ih =>
    have := ih (h.next (hs c (hds c mem_cons_self))) fun c hc => hds c (mem_cons_of_mem _ hc)
    rwa [append_assoc] at this

/-- One or more digits, where the first one leads to the state of the others. -/
theorem ReadsNumber.first (h : ReadsNumber literal state)
    (hf : ∀ c, IsDigit c → state.step c = .next state')
    (hs : ∀ c, IsDigit c → state'.step c = .next state') (hds : Digits ds) :
    ReadsNumber (literal ++ ds) state' := by
  obtain ⟨hne, hds⟩ := hds
  cases ds with
  | nil => exact absurd rfl hne
  | cons c ds =>
    have := (h.next (hf c (hds c mem_cons_self))).digits hs
      fun c hc => hds c (mem_cons_of_mem _ hc)
    rwa [append_assoc] at this

theorem step_dot (hs : state = .zero ∨ state = .digit) : state.step 0x2E = .next .dot := by
  rcases hs with rfl | rfl <;> rfl

theorem step_e (hs : state = .zero ∨ state = .digit ∨ state = .dotDigit)
    (hc : c = 0x65 ∨ c = 0x45) : state.step c = .next .e := by
  rcases hs with rfl | rfl | rfl <;> rcases hc with rfl | rfl <;> rfl

theorem readsNumber_int {minus int : List ℕ} (hm : minus = [] ∨ minus = [0x2D]) (h : IsInt int) :
    ReadsNumber (minus ++ int) .zero ∧ int = [0x30] ∨ ReadsNumber (minus ++ int) .digit := by
  cases h with
  | zero => exact .inl ⟨readsNumber_first hm ⟨by decide, by decide⟩, rfl⟩
  | @digits c _ hc hne hds =>
    have hf := readsNumber_first hm hc
    rw [if_neg hne] at hf
    have := hf.digits (fun c hc => if_pos (isDigit_xor.mpr hc)) hds
    rw [append_assoc] at this
    exact .inr this

theorem ReadsNumber.frac {frac : List ℕ} (h : ReadsNumber literal state)
    (hs : state = .zero ∨ state = .digit) (hf : IsFrac frac) :
    frac = [] ∨ ReadsNumber (literal ++ frac) .dotDigit := by
  cases hf with
  | none => exact .inl rfl
  | @digits _ hds =>
    have := (h.next (step_dot hs)).first (fun c hc => if_pos (isDigit_xor.mpr hc))
      (fun c hc => if_pos (isDigit_xor.mpr hc)) hds
    rw [append_assoc] at this
    exact .inr this

theorem ReadsNumber.exp {exp : List ℕ} (h : ReadsNumber literal state)
    (hst : state = .zero ∨ state = .digit ∨ state = .dotDigit) (hex : IsExp exp) :
    exp = [] ∨ ReadsNumber (literal ++ exp) .eDigit := by
  cases hex with
  | none => exact .inl rfl
  | @digits e sign ds he hsg hds =>
    have hs := h.next (step_e hst he)
    have hed : ∀ c, IsDigit c → NumberState.eDigit.step c = .next .eDigit :=
      fun c hc => if_pos (isDigit_xor.mpr hc)
    have hd : ReadsNumber (literal ++ [e] ++ (sign ++ ds)) .eDigit := by
      have ha : ∀ c, c = 0x2B ∨ c = 0x2D → sign = [c] →
          ReadsNumber (literal ++ [e] ++ (sign ++ ds)) .eDigit := by
        rintro c hc rfl
        have hn : NumberState.e.step c = .next .eSign := if_pos hc
        have := (hs.next hn).first (fun c hc => if_pos (isDigit_xor.mpr hc)) hed hds
        rwa [append_assoc] at this
      rcases hsg with rfl | rfl | rfl
      · refine hs.first (fun c hc => ?_) hed hds
        obtain ⟨hge, hle⟩ := hc
        unfold NumberState.step
        dsimp only
        rw [if_neg (by unfold PLUS MINUS; omega), if_pos (isDigit_xor.mpr ⟨hge, hle⟩)]
      · exact ha 0x2B (.inl rfl) rfl
      · exact ha 0x2D (.inr rfl) rfl
    rw [append_assoc] at hd
    exact .inr hd

/-- **A number is read, and the state that it ends in has its value.** -/
theorem readsNumber_numeral (h : Numeral literal n) :
    ∃ state, ReadsNumber literal state ∧ state.value literal = some n := by
  have hint : ∀ {minus int : List ℕ} (sign : ℤ), Signed sign minus → IsInt int →
      ∃ state, ReadsNumber (minus ++ int) state ∧
        state.value (minus ++ int) = some (.int (sign * decimalValue int)) := by
    intro minus int sign hsg h
    have hm : minus = [] ∨ minus = [0x2D] := hsg.imp And.right And.right
    rcases readsNumber_int hm h with ⟨hr, rfl⟩ | hr
    · refine ⟨.zero, hr, ?_⟩
      have hz : decimalValue [0x30] = 0 := by decide
      rw [hz, Int.mul_comm, show ((0 : ℕ) : ℤ) = 0 from rfl, Int.zero_mul]
      rfl
    · refine ⟨.digit, hr, ?_⟩
      show some (Number.int (parseInt (minus ++ int))) = _
      rw [parseInt_signed hsg (isInt_digits h).1
          fun c hc => isDigit_xor.mpr ((isInt_digits h).2 c hc),
        decimal_eq]
  cases h with
  | nonneg h =>
    have := hint 1 (.inl ⟨rfl, rfl⟩) h
    rwa [Int.one_mul] at this
  | neg h =>
    have := hint (-1) (.inr ⟨rfl, rfl⟩) h
    rwa [Int.neg_mul, Int.one_mul] at this
  | @double minus ds frac exp hm h hf he hne =>
    have hr : ∃ state, ReadsNumber (minus ++ ds) state ∧ (state = .zero ∨ state = .digit) := by
      rcases readsNumber_int hm h with ⟨hr, -⟩ | hr
      · exact ⟨.zero, hr, .inl rfl⟩
      · exact ⟨.digit, hr, .inr rfl⟩
    obtain ⟨state, hr, hs⟩ := hr
    rcases hr.frac hs hf with rfl | hr'
    · rw [append_nil]
      rcases hr.exp (hs.imp_right .inl) he with rfl | hr''
      · exact absurd rfl hne
      · exact ⟨.eDigit, hr'', rfl⟩
    · rcases hr'.exp (.inr (.inr rfl)) he with rfl | hr''
      · rw [append_nil]
        exact ⟨.dotDigit, hr', rfl⟩
      · exact ⟨.eDigit, hr'', rfl⟩

end Numbers

section Values

variable {c outer : Context false} {l : BuildJsonListener} {v : Json} {members : List (List ℕ × Json)}
  {key : List ℕ}

/-- The value has been read in the context, or it is a number that ends with the next character. -/
structure Pending (c : Context false) (v : Json) (m : JsonMachine) : Prop where
  place : m.place = c.place.after
  stack : m.stack = c.places
  listener : c.Holds m.listener
  token : m.token = .none ∧ m.listener.value = v ∨
    ∃ state literal n, m.token = .number state literal ∧ state.value literal = some n ∧ v = .number n

def IsDelimiter (char : ℕ) : Prop :=
  IsWhitespace char ∨ char = 0x2C ∨ char = 0x5D ∨ char = 0x7D

theorem step_delimiter {state : NumberState} {literal : List ℕ} {n : Number} (h : IsDelimiter char)
    (hv : state.value literal = some n) : state.step char = .stop := by
  unfold IsDelimiter IsWhitespace at h
  have hd : ¬char ^^^ CHAR_0 ≤ 9 := fun hd => by
    obtain ⟨hge, hle⟩ := isDigit_xor.mp hd
    omega
  have hdt : char ≠ DECIMALPOINT := by
    unfold DECIMALPOINT
    omega
  have he : char ||| 0x20 ≠ CHAR_e := fun he => by
    have := isExponent.mp he
    omega
  cases state with
  | zero | digit => simp only [NumberState.step, if_neg hd, if_neg hdt, if_neg he]
  | dotDigit => simp only [NumberState.step, if_neg hd, if_neg he]
  | eDigit => simp only [NumberState.step, if_neg hd]
  | _ => cases hv

/-- **A number ends where the next token begins.** -/
theorem Pending.step (h : Pending c v m) (hc : IsDelimiter char) :
    ∃ l, c.Holds l ∧ l.value = v ∧
      m.step char = (⟨c.place.after, c.places, .none, l⟩ : JsonMachine).start char := by
  obtain ⟨place, _, token, l⟩ := m
  obtain ⟨rfl, rfl, hl, ⟨rfl, hv⟩ | ⟨_, _, n, rfl, hn, rfl⟩⟩ := h
  · exact ⟨l, hl, hv, rfl⟩
  refine ⟨{ l with value := .number n }, hl.value _, rfl, ?_⟩
  unfold step
  dsimp only
  rw [step_delimiter hc hn]
  unfold finish
  dsimp only
  rw [hn]
  rfl

theorem Pending.whitespace (h : Pending c v m) (hw : Whitespace w) :
    ∃ m', m.run w = .ok m' ∧ Pending c v m' := by
  cases w with
  | nil => exact ⟨m, rfl, h⟩
  | cons char w =>
    obtain ⟨l, hl, hv, hs⟩ := h.step (.inl (hw char mem_cons_self))
    rw [start_space (hw char mem_cons_self)] at hs
    exact ⟨_, run_cons_ok hs (run_whitespace rfl fun c hc => hw c (mem_cons_of_mem _ hc)),
      rfl, rfl, hl, .inl ⟨rfl, hv⟩⟩

theorem pending_of_holds (hl : c.Holds l) (hv : l.value = v) :
    Pending c v ⟨c.place.after, c.places, .none, l⟩ :=
  ⟨rfl, rfl, hl, .inl ⟨rfl, hv⟩⟩

def Reads : Phrase → List ℕ → Prop
  | .value v, text => ∀ (c : Context false) (l : BuildJsonListener), c.Holds l →
      ∃ m, run ⟨c.place, c.places, .none, l⟩ text = .ok m ∧ Pending c v m
  | .elements init last, text => ∀ (c : Context false) (l : BuildJsonListener), (Context.list c []).Holds l →
      ∃ m, run ⟨.arrayEmpty, c.place :: c.places, .none, l⟩ text = .ok m ∧
        Pending (.list c init) last m
  | .members init key last, text => ∀ (c : Context false) (l : BuildJsonListener), (Context.key c []).Holds l →
      ∃ m, run ⟨.objectEmpty, c.place :: c.places, .none, l⟩ text = .ok m ∧
        Pending (.map c init key) last m

theorem reads_keyword (kind : Keyword) : Reads (.value kind.json) kind.chars := by
  intro c l hl
  refine ⟨_, ?_, pending_of_holds (hl.value kind.json) rfl⟩
  have hs {char : ℕ} (h : kind.chars.head? = some char) :
      (⟨c.place, c.places, .none, l⟩ : JsonMachine).step char =
        .ok ⟨c.place.after, c.places, .keyword kind 1, l⟩ := by
    show start _ _ = _
    rw [start_keyword kind h, beginToken_true c.allowsValue]
  cases kind <;> exact run_cons_ok (hs rfl) rfl

theorem reads_number {n : Number} (h : Numeral text n) : Reads (.value (.number n)) text := by
  intro c l hl
  obtain ⟨state, hr, hv⟩ := readsNumber_numeral h
  exact ⟨_, hr ⟨c.place, c.places, .none, l⟩ rfl c.allowsValue, rfl, rfl, hl,
    .inr ⟨state, text, n, rfl, hv, rfl⟩⟩

theorem reads_string {raw s : List ℕ} (h : Chars raw s) :
    Reads (.value (.string s)) (0x22 :: (raw ++ [0x22])) := by
  intro c l hl
  exact ⟨_, run_string h rfl c.allowsString, pending_of_holds (hl.value _) rfl⟩

theorem openContainer_ok {event : JsonEvent} {place : Place} {l' : BuildJsonListener}
    (h : JsonListener.call l event = .ok l') :
    (⟨c.place, c.places, .none, l⟩ : JsonMachine).openContainer event place =
      .ok ⟨place, c.place :: c.places, .none, l'⟩ := by
  unfold Machine.openContainer
  rw [if_pos c.allowsValue, call_ok h]
  rfl

theorem reads_emptyArray (hw : Whitespace w) : Reads (.value (.list [])) (0x5B :: (w ++ [0x5D])) := by
  intro c l hl
  obtain ⟨_, hp, hl'', hv⟩ := popContainer_eq hl.beginArray.stack hl.beginArray.container
  refine ⟨_, run_cons_ok (openContainer_ok rfl) (run_append_ok (run_whitespace rfl hw) (run_singleton ?_)),
    pending_of_holds hl'' hv⟩
  show Machine.call _ .endArray >>= _ = _
  rw [call_ok hp]
  rfl

theorem reads_emptyObject (hw : Whitespace w) : Reads (.value (.map [])) (0x7B :: (w ++ [0x7D])) := by
  intro c l hl
  obtain ⟨_, hp, hl'', hv⟩ := popContainer_eq hl.beginObject.stack hl.beginObject.container
  refine ⟨_, run_cons_ok (openContainer_ok rfl) (run_append_ok (run_whitespace rfl hw) (run_singleton ?_)),
    pending_of_holds hl'' hv⟩
  show Machine.call _ .endObject >>= _ = _
  rw [call_ok hp]
  rfl

theorem after_list {elements : List Json} :
    (Context.list outer elements).place.after = .arrayValue := by
  cases elements <;> rfl

theorem reads_array {init : List Json} {last : Json} (h : Reads (.elements init last) text) :
    Reads (.value (.list (init ++ [last]))) (0x5B :: (text ++ [0x5D])) := by
  intro c l hl
  obtain ⟨m, hr, hp⟩ := h c _ hl.beginArray
  obtain ⟨_, hl'', hv, hs'⟩ := hp.step (show IsDelimiter 0x5D from .inr (.inr (.inl rfl)))
  obtain ⟨_, he, hl₁⟩ := hl''.arrayElement
  obtain ⟨_, hpp, hl₂, hv₂⟩ := popContainer_eq hl₁.stack hl₁.container
  refine ⟨_, run_cons_ok (openContainer_ok rfl) (run_append_ok hr (run_singleton ?_)),
    pending_of_holds hl₂ (hv₂.trans (by rw [hv]; rfl))⟩
  rw [hs', after_list]
  show ((Machine.call _ .arrayElement >>= fun m => Machine.call m .endArray) >>= _) = _
  rw [call_ok he]
  show (Machine.call _ .endArray >>= _) = _
  rw [call_ok hpp]
  rfl

theorem reads_object {init : List (List ℕ × Json)} {last : Json}
    (h : Reads (.members init key last) text) :
    Reads (.value (.map (ofMembers (init ++ [(key, last)])))) (0x7B :: (text ++ [0x7D])) := by
  intro c l hl
  obtain ⟨m, hr, hpn⟩ := h c _ hl.beginObject
  obtain ⟨_, hl'', hv, hs'⟩ := hpn.step (show IsDelimiter 0x7D from .inr (.inr (.inr rfl)))
  obtain ⟨_, hp, hl₁⟩ := hl''.propertyValue
  obtain ⟨_, hpp, hl₂, hv₂⟩ := popContainer_eq hl₁.stack hl₁.container
  refine ⟨_, run_cons_ok (openContainer_ok rfl) (run_append_ok hr (run_singleton ?_)),
    pending_of_holds hl₂ (hv₂.trans (by rw [hv]; rfl))⟩
  rw [hs']
  show ((Machine.call _ .propertyValue >>= fun m => Machine.call m .endObject) >>= _) = _
  rw [call_ok hp]
  show (Machine.call _ .endObject >>= _) = _
  rw [call_ok hpp]
  rfl

theorem reads_between {w' : List ℕ} (hw : Whitespace w) (h : Reads (.value v) text)
    (hw' : Whitespace w') (hl : c.Holds l) :
    ∃ m, run ⟨c.place, c.places, .none, l⟩ (w ++ text ++ w') = .ok m ∧ Pending c v m := by
  obtain ⟨m, hr, hp⟩ := h c l hl
  obtain ⟨m', hr', hp'⟩ := hp.whitespace hw'
  exact ⟨m', run_append_ok (run_append_ok (run_whitespace rfl hw) hr) hr', hp'⟩

theorem reads_member {place : Place} {name w₁ w₂ w' : List ℕ}
    (hp : place = .objectEmpty ∨ place = .objectComma) (hw : Whitespace w)
    (hn : Chars name key) (hw₁ : Whitespace w₁) (hw₂ : Whitespace w₂) (h : Reads (.value v) text)
    (hw' : Whitespace w') (hl : (Context.key outer members).Holds l) :
    ∃ m, run ⟨place, outer.place :: outer.places, .none, l⟩
        (w ++ 0x22 :: (name ++ 0x22 :: (w₁ ++ 0x3A :: (w₂ ++ text ++ w')))) = .ok m ∧
      Pending (.map outer members key) v m := by
  have ha : place.after = .objectKey := by
    rcases hp with rfl | rfl <;> rfl
  have hs := run_string (m := ⟨place, outer.place :: outer.places, .none, l⟩) hn rfl
    (by rcases hp with rfl | rfl <;> rfl)
  rw [ha] at hs
  obtain ⟨_, hn', hl'⟩ := (hl.value (.string key)).propertyName rfl
  obtain ⟨m, hr, hpn⟩ := reads_between hw₂ h hw' hl'
  refine ⟨m, ?_, hpn⟩
  rw [show (0x22 :: (name ++ 0x22 :: (w₁ ++ 0x3A :: (w₂ ++ text ++ w')))) =
    0x22 :: (name ++ [0x22]) ++ (w₁ ++ 0x3A :: (w₂ ++ text ++ w')) by simp]
  refine run_append_ok (run_whitespace rfl hw) (run_append_ok hs ?_)
  refine run_append_ok (run_whitespace rfl hw₁) (run_cons_ok ?_ hr)
  show (Machine.call _ .propertyName >>= _) = _
  rw [call_ok hn']
  rfl

/-- **Every phrase of the grammar is read.** -/
theorem derives_reads {phrase : Phrase} (h : Derives phrase text) : Reads phrase text := by
  induction h with
  | null => exact reads_keyword .null
  | true => exact reads_keyword .true
  | false => exact reads_keyword .false
  | number h => exact reads_number h
  | string h => exact reads_string h
  | emptyArray hw => exact reads_emptyArray hw
  | array h ih => exact reads_array ih
  | emptyObject hw => exact reads_emptyObject hw
  | object h ih => exact reads_object ih
  | element hw h hw' ih =>
    intro c l hl
    exact reads_between hw ih hw' hl
  | @elements init last v text w text' w' h hw h' hw' ih ih' =>
    intro c l hl
    obtain ⟨m, hr, hp⟩ := ih c l hl
    obtain ⟨l', hl', hv, hs⟩ := hp.step (show IsDelimiter 0x2C from .inr (.inl rfl))
    obtain ⟨l'', he, hl''⟩ := hl'.arrayElement
    rw [hv] at hl''
    obtain ⟨m', hr', hp'⟩ := reads_between hw ih' hw' hl''
    refine ⟨m', run_append_ok hr (run_cons_ok ?_ hr'), hp'⟩
    rw [hs, after_list, Context.place_append]
    show (Machine.call _ .arrayElement >>= _) = _
    rw [call_ok he]
    rfl
  | member hw hn hw₁ hw₂ h hw' ih =>
    intro c l hl
    exact reads_member (.inl rfl) hw hn hw₁ hw₂ ih hw' hl
  | @members init _ _ last v text w _ _ _ text' w' h hw hn hw₁ hw₂ h' hw' ih ih' =>
    intro c l hl
    obtain ⟨m, hr, hp⟩ := ih c l hl
    obtain ⟨l', hl', hv, hs⟩ := hp.step (show IsDelimiter 0x2C from .inr (.inl rfl))
    obtain ⟨l'', hpr, hl''⟩ := hl'.propertyValue
    rw [hv] at hl''
    obtain ⟨m', hr', hp'⟩ := reads_member (.inr rfl) hw hn hw₁ hw₂ ih' hw' hl''
    refine ⟨m', run_append_ok hr (run_cons_ok ?_ hr'), hp'⟩
    rw [hs]
    show (Machine.call _ .propertyValue >>= _) = _
    rw [call_ok hpr]
    rfl

theorem Pending.close (h : Pending .top v m) : ∃ l, m.close = .ok l ∧ l.value = v := by
  obtain ⟨_, _, _, l⟩ := m
  obtain ⟨rfl, rfl, -, ⟨rfl, hv⟩ | ⟨_, _, n, rfl, hn, rfl⟩⟩ := h
  · exact ⟨l, rfl, hv⟩
  refine ⟨{ l with value := .number n }, ?_, rfl⟩
  show finish _ >>= _ = _
  unfold finish
  dsimp only
  rw [hn]
  rfl

end Values

section StringParser

theorem parseJson_of_denotes {text : List ℕ} {v : Json} (h : Denotes text v) :
    parseJson text = .ok v := by
  obtain ⟨w, _, _, rfl, hw, hd, hw'⟩ := h
  obtain ⟨m, hr, hp⟩ :=
    reads_between (c := .top) (l := .new) hw (derives_reads hd) hw' ⟨rfl, rfl, trivial⟩
  obtain ⟨l, hc, hv⟩ := hp.close
  rw [← outcome_eq_ok, outcome_parseJson, ← hv]
  show (run ⟨Context.top.place, Context.top.places, .none, BuildJsonListener.new⟩ _ >>=
    _).map _ = _
  rw [hr]
  show m.close.map _ = _
  rw [hc]
  rfl

/-- **The string parser decides the grammar**: the value is what the text denotes, and a text that
denotes nothing gives a `FormatException`. -/
theorem parseJson_decides (text : List ℕ) :
    (∀ v, parseJson text = .ok v ↔ Denotes text v) ∧
      ((∃ v, Denotes text v) ∨ ∃ message offset,
        parseJson text = .error (.formatException message offset)) := by
  have hr := parseJson_returns text
  refine ⟨fun v => ⟨fun h => ?_, parseJson_of_denotes⟩, ?_⟩
  · rwa [h] at hr
  · cases h : outcome (parseJson text) with
    | ok v =>
      rw [h] at hr
      exact .inl ⟨v, hr⟩
    | error t =>
      rw [h] at hr
      refine .inr (outcome_eq_formatException.mp ?_)
      rw [h, show t = .formatException from hr]

end StringParser

end DartSdk.Convert
