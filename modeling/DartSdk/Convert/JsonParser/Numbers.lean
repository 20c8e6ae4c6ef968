import DartSdk.Convert.JsonParser.Reading

/-!
# Numbers, read by the parser and by the machine

`parseNumber` and `parsePartialNumber` test for the end of the chunk after every character and go
through the parts of a numeral in their order; `readNumber` goes from state to state.  They do the
same (`parseNumber_minus`, `parseNumber_digit`, `parsePartialNumber_eq`), and the value that
`parseNumber` computes from the digits is the one that `int.parse` gives.
-/

namespace DartSdk.Convert.Machine

open ChunkedJsonParser List NumberState

section Digits

theorem isDigit_iff (c : ℕ) : c ^^^ CHAR_0 ≤ 9 ↔ 0x30 ≤ c ∧ c ≤ 0x39 := by
  by_cases h : c < 0x40
  · revert c
    decide
  have hl : 0x40 ≤ c ^^^ CHAR_0 := by
    by_contra hsmall
    have hlt : c ^^^ CHAR_0 ^^^ CHAR_0 < 2 ^ 6 := Nat.xor_lt_two_pow (by omega) (by decide)
    rw [xor_xor_self] at hlt
    omega
  omega

theorem digit_eq {c : ℕ} (h : c ^^^ CHAR_0 ≤ 9) : c ^^^ CHAR_0 = c - CHAR_0 := by
  have ha : ∀ c < 0x40, c ^^^ CHAR_0 ≤ 9 → c ^^^ CHAR_0 = c - CHAR_0 := by decide
  have hc := (isDigit_iff c).mp h
  exact ha c (by omega) h

theorem decimal_append (digits : List ℕ) (c : ℕ) :
    decimal (digits ++ [c]) = 10 * decimal digits + (c - CHAR_0) := by
  unfold decimal
  rw [foldl_append]
  rfl

/-- The sign of a numeral and how it is written. -/
def Signed (sign : ℤ) (chars : List ℕ) : Prop := sign = 1 ∧ chars = [] ∨ sign = -1 ∧ chars = [MINUS]

theorem parseInt_signed {sign : ℤ} {chars digits : List ℕ} (h : Signed sign chars)
    (hd : digits ≠ []) (ha : ∀ c ∈ digits, c ^^^ CHAR_0 ≤ 9) :
    parseInt (chars ++ digits) = sign * decimal digits := by
  rcases h with ⟨rfl, rfl⟩ | ⟨rfl, rfl⟩
  · cases digits with
    | nil => exact absurd rfl hd
    | cons c digits =>
      have hc := (isDigit_iff c).mp (ha c mem_cons_self)
      rw [nil_append, parseInt, if_neg (by unfold MINUS; omega), Int.one_mul]
  · rw [singleton_append, parseInt, if_pos rfl, Int.neg_mul, Int.one_mul]

end Digits

section Numbers

variable {β L : Type} [JsonListener L]

variable {p : ChunkedJsonParser β L} {state : NumberState} {literal buffer slice : List ℕ} {char : ℕ}
  {rest : List ℕ}

/-- What both `parseNumber` and `parsePartialNumber` do, with one state after the other. -/
def readNumber (p : ChunkedJsonParser β L) (state : NumberState) (literal : List ℕ) :
    List ℕ → Except Thrown (Reading β L)
  | [] => .ok
      ({ p with buffer := .number literal, partialState := PARTIAL_NUMERAL ||| state.bits }, [])
  | char :: rest =>
    match state.step char with
    | .next state => readNumber p state (literal ++ [char]) rest
    | .stop =>
      match state.value literal with
      | some value => do
        let p ← p.call (.handleNumber value)
        .ok (p, char :: rest)
      | none => p.fail (char :: rest)
    | .fail => p.fail (char :: rest)

theorem readNumber_next {state' : NumberState} (h : state.step char = .next state') :
    readNumber p state literal (char :: rest) = readNumber p state' (literal ++ [char]) rest := by
  rw [readNumber, h]

theorem readNumber_stop {value : Number} (h : state.step char = .stop)
    (hv : state.value literal = some value) :
    readNumber p state literal (char :: rest) = (do
      let p ← p.call (.handleNumber value)
      .ok (p, char :: rest)) := by
  rw [readNumber, h]
  rw [hv]

theorem readNumber_fail (h : state.step char = .fail) :
    readNumber p state literal (char :: rest) = p.fail (char :: rest) := by
  rw [readNumber, h]

theorem number_bits_inj {state' : NumberState} : state.bits = state'.bits ↔ state = state' := by
  cases state <;> cases state' <;> decide

omit [JsonListener L] in
theorem outcome_bits (state' : NumberState) {x y z : Except Thrown (Reading β L)}
    (hp : state = state' → outcome x = outcome z) (hn : state ≠ state' → outcome y = outcome z) :
    outcome (if state.bits = state'.bits then x else y) = outcome z := by
  split_ifs with h
  · exact hp (number_bits_inj.mp h)
  · exact hn fun he => h (number_bits_inj.mpr he)

theorem finishChunkNumber_eq : p.finishChunkNumber buffer state.bits slice rest =
      match state.value (buffer ++ slice) with
      | some value => (do
        let p ← p.call (.handleNumber value)
        .ok (p, rest))
      | none => p.failWith [] "Unterminated number literal" := by
  cases state <;> rfl

theorem outcome_finish (hs : state.step char =
      if (state.value (buffer ++ slice)).isSome then .stop else .fail) :
    outcome (p.finishChunkNumber buffer state.bits slice (char :: rest)) =
      outcome (readNumber p state (buffer ++ slice) (char :: rest)) := by
  cases hv : state.value (buffer ++ slice) with
  | none =>
    rw [hv] at hs
    rw [finishChunkNumber_eq, readNumber_fail hs, hv]
    rfl
  | some value =>
    rw [hv] at hs
    rw [finishChunkNumber_eq, readNumber_stop hs hv, hv]

theorem partialExponentDigits_eq (rest : List ℕ) (hst : state = .eSign ∨ state = .eDigit ∨
      state = .e ∧ ∀ c ∈ rest.head?, ¬(c = PLUS ∨ c = MINUS)) :
    outcome (p.partialExponentDigits buffer state.bits slice rest) =
      outcome (readNumber p state (buffer ++ slice) rest) := by
  induction rest generalizing state slice with
  | nil => rfl
  | cons char rest ih =>
    have hs : state.step char = if char ^^^ CHAR_0 ≤ 9 then .next .eDigit
        else if (state.value (buffer ++ slice)).isSome then .stop else .fail := by
      rcases hst with rfl | rfl | ⟨rfl, hsign⟩
      · rfl
      · rfl
      · exact if_neg (hsign char rfl)
    rw [partialExponentDigits]
    by_cases hdigit : char ^^^ CHAR_0 ≤ 9
    · rw [if_pos hdigit] at hs ⊢
      rw [readNumber_next hs, append_assoc]
      exact ih (.inr (.inl rfl))
    · rw [if_neg hdigit] at hs ⊢
      exact outcome_finish hs

theorem partialExponent_eq (rest : List ℕ) (hst : state = .e ∨ state = .eSign ∨ state = .eDigit) :
    outcome (p.partialExponent buffer state.bits slice rest) =
      outcome (readNumber p state (buffer ++ slice) rest) := by
  cases rest with
  | nil => rfl
  | cons char rest =>
    rw [partialExponent]
    by_cases hs : state = .e ∧ (char = PLUS ∨ char = MINUS)
    · obtain ⟨rfl, hs⟩ := hs
      rw [if_pos ⟨rfl, hs⟩, readNumber, NumberState.step, if_pos hs, append_assoc]
      exact partialExponentDigits_eq rest (.inl rfl)
    rw [if_neg fun h => hs (h.imp_left number_bits_inj.mp)]
    refine partialExponentDigits_eq (char :: rest) ?_
    rcases hst with rfl | rfl | rfl
    · refine .inr (.inr ⟨rfl, ?_⟩)
      rintro c hc
      cases hc
      exact fun h => hs ⟨rfl, h⟩
    · exact .inl rfl
    · exact .inr (.inl rfl)

theorem partialFractionDigits_eq (rest : List ℕ)
    (hs : state = .dotDigit ∨ state = .e ∨ state = .eSign ∨ state = .eDigit) :
    outcome (p.partialFractionDigits buffer state.bits slice rest) =
      outcome (readNumber p state (buffer ++ slice) rest) := by
  induction rest generalizing slice with
  | nil => rfl
  | cons char rest ih =>
    rw [partialFractionDigits]
    refine outcome_bits .dotDigit ?_ fun hd =>
      partialExponent_eq (char :: rest) (hs.resolve_left hd)
    rintro rfl
    rw [readNumber, NumberState.step]
    simp only [← Nat.not_le, ite_not]
    split_ifs
    · rw [append_assoc]
      exact ih
    · rw [append_assoc]
      exact partialExponent_eq rest (.inl rfl)
    · rfl

theorem partialFraction_eq (rest : List ℕ)
    (hs : state = .dot ∨ state = .dotDigit ∨ state = .e ∨ state = .eSign ∨ state = .eDigit) :
    outcome (p.partialFraction buffer state.bits slice rest) =
      outcome (readNumber p state (buffer ++ slice) rest) := by
  cases rest with
  | nil => rfl
  | cons char rest =>
    rw [partialFraction]
    refine outcome_bits .dot ?_ fun hdt =>
      partialFractionDigits_eq (char :: rest) (hs.resolve_left hdt)
    rintro rfl
    rw [readNumber, NumberState.step]
    simp only [← Nat.not_le, ite_not]
    split_ifs with hd
    · refine (partialFractionDigits_eq (char :: rest) (.inl rfl)).trans ?_
      rw [readNumber, NumberState.step, if_pos hd]
    · rfl

theorem partialDigits_eq (state : NumberState) (slice rest : List ℕ) (hs : state ≠ .sign)
    (hz : state ≠ .zero) :
    outcome (p.partialDigits buffer state.bits slice rest) =
      outcome (readNumber p state (buffer ++ slice) rest) := by
  induction rest generalizing slice with
  | nil => rfl
  | cons char rest ih =>
    rw [partialDigits]
    refine outcome_bits .digit ?_ fun hd => partialFraction_eq (char :: rest) ?_
    · rintro rfl
      rw [readNumber, NumberState.step]
      simp only [← Nat.not_le, ite_not]
      split_ifs
      · rw [append_assoc]
        exact ih (slice ++ [char])
      · rw [append_assoc]
        exact partialFraction_eq rest (.inl rfl)
      · rw [append_assoc]
        exact partialFraction_eq rest (.inr (.inr (.inl rfl)))
      · rfl
    · cases state <;> simp at hs hz hd ⊢

theorem partialZero_eq (state : NumberState) (slice rest : List ℕ) (hs : state ≠ .sign)
    (hz : state = .zero → parseInt (buffer ++ slice) = 0) :
    outcome (p.partialZero buffer state.bits slice rest) =
      outcome (readNumber p state (buffer ++ slice) rest) := by
  cases rest with
  | nil => rfl
  | cons char rest =>
    rw [partialZero]
    refine outcome_bits .zero ?_ (partialDigits_eq state slice (char :: rest) hs)
    rintro rfl
    rw [readNumber, NumberState.step]
    by_cases hdigit : char ^^^ CHAR_0 ≤ 9
    · rw [if_pos hdigit, if_pos hdigit]
    · -- From here on the parser treats it as a numeral that starts with another digit.
      rw [if_neg hdigit, if_neg hdigit]
      refine (partialDigits_eq .digit slice (char :: rest) (by decide) (by decide)).trans ?_
      rw [readNumber, NumberState.step, if_neg hdigit, NumberState.value, NumberState.value, hz rfl]

/-- **The continuation of a number.** -/
theorem parsePartialNumber_eq (hb : p.buffer = .number buffer)
    (hsg : state = .sign → buffer = [MINUS]) (hzr : state = .zero → parseInt buffer = 0)
    (hr : rest ≠ []) : outcome (p.parsePartialNumber rest state.bits) =
      outcome (readNumber { p with buffer := .null } state buffer rest) := by
  unfold parsePartialNumber
  rw [hb]
  cases rest with
  | nil => exact absurd rfl hr
  | cons char rest =>
    refine outcome_bits .sign ?_ fun hs => ?_
    · rintro rfl
      rw [readNumber, NumberState.step]
      split_ifs with hd hz
      · refine partialZero_eq .zero [char] rest (by decide) fun _ => ?_
        rw [hsg rfl, parseInt_signed (.inr ⟨rfl, rfl⟩) (by simp) (by simpa using hd)]
        have hc := digit_eq hd
        show -1 * ((10 * 0 + (char - CHAR_0) : ℕ) : ℤ) = 0
        rw [← hc, hz]
        rfl
      · exact partialZero_eq .digit [char] rest (by decide) nofun
      · rfl
    · refine (partialZero_eq state [] (char :: rest) hs fun hz => ?_).trans ?_
      · rw [append_nil]
        exact hzr hz
      · rw [append_nil]

theorem parseExponentDigits_eq (literal : List ℕ) (char : ℕ) (rest : List ℕ) :
    outcome (p.parseExponentDigits literal char rest) =
      outcome (readNumber p .eDigit (literal ++ [char]) rest) := by
  induction rest generalizing literal char with
  | nil => rfl
  | cons next rest ih =>
    rw [parseExponentDigits, readNumber, NumberState.step]
    split_ifs
    · exact ih (literal ++ [char]) next
    · rfl

theorem parseExponentDigit_eq
    (hs : state.step char = if char ^^^ CHAR_0 ≤ 9 then .next .eDigit else .fail) :
    outcome (p.parseExponentDigit literal char rest) =
      outcome (readNumber p state literal (char :: rest)) := by
  rw [parseExponentDigit]
  by_cases hdigit : char ^^^ CHAR_0 ≤ 9
  · rw [if_pos hdigit] at hs
    rw [if_neg (Nat.not_lt.mpr hdigit), readNumber_next hs, parseExponentDigits_eq]
  · rw [if_neg hdigit] at hs
    rw [if_pos (Nat.lt_of_not_le hdigit), readNumber_fail hs]
    rfl

theorem parseExponent_eq {intValue : Option ℤ}
    (hs : state.step char = if char ||| 0x20 = CHAR_e then .next .e else .stop)
    (hv : state.value literal = some (match intValue with
      | some value => .int value
      | none => .double literal)) :
    outcome (p.parseExponent intValue literal char rest) =
      outcome (readNumber p state literal (char :: rest)) := by
  unfold parseExponent
  by_cases he : char ||| 0x20 = CHAR_e
  · rw [if_pos he] at hs ⊢
    rw [readNumber_next hs]
    cases rest with
    | nil => rfl
    | cons next rest =>
      dsimp only
      by_cases hsign : next = PLUS ∨ next = MINUS
      · rw [if_pos hsign, readNumber, NumberState.step, if_pos hsign]
        cases rest with
        | nil => rfl
        | cons _ rest => exact parseExponentDigit_eq rfl
      · rw [if_neg hsign]
        exact parseExponentDigit_eq (if_neg hsign)
  · rw [if_neg he] at hs ⊢
    rw [readNumber_stop hs hv]
    rfl

theorem parseFractionDigits_eq (literal : List ℕ) (char : ℕ) (rest : List ℕ) :
    outcome (p.parseFractionDigits literal char rest) =
      outcome (readNumber p .dotDigit (literal ++ [char]) rest) := by
  induction rest generalizing literal char with
  | nil => rfl
  | cons next rest ih =>
    rw [parseFractionDigits]
    by_cases hd : next ^^^ CHAR_0 ≤ 9
    · rw [if_pos hd, readNumber, NumberState.step, if_pos hd]
      exact ih (literal ++ [char]) next
    · rw [if_neg hd]
      exact parseExponent_eq (if_neg hd) rfl

/-- The character after the digits of an integer, which may be a point. -/
theorem parseFraction_eq {intValue : ℤ}
    (hs : state.step char = if char = DECIMALPOINT then .next .dot
      else if char ||| 0x20 = CHAR_e then .next .e else .stop)
    (hv : state.value literal = some (.int intValue)) :
    outcome (p.parseFraction intValue literal char rest) =
      outcome (readNumber p state literal (char :: rest)) := by
  unfold parseFraction
  by_cases hdot : char = DECIMALPOINT
  · rw [if_pos hdot] at hs ⊢
    rw [readNumber_next hs]
    cases rest with
    | nil => rfl
    | cons digit rest =>
      rw [readNumber, NumberState.step]
      simp only [← Nat.not_le, ite_not]
      split_ifs
      · exact parseFractionDigits_eq (literal ++ [char]) digit rest
      · rfl
  · rw [if_neg hdot] at hs ⊢
    exact parseExponent_eq hs hv

theorem parseDigits_eq {sign : ℤ} {chars : List ℕ} (hs : Signed sign chars) (digits : List ℕ)
    (hdg : ∀ c ∈ digits, c ^^^ CHAR_0 ≤ 9) (char : ℕ) (hch : char ^^^ CHAR_0 ≤ 9)
    (rest : List ℕ) :
    outcome (p.parseDigits sign (decimal digits) (chars ++ digits) char rest) =
      outcome (readNumber p .digit (chars ++ digits ++ [char]) rest) := by
  induction rest generalizing digits char with
  | nil => rfl
  | cons next rest ih =>
    have ha : ∀ c ∈ digits ++ [char], c ^^^ CHAR_0 ≤ 9 := by
      intro c hc
      rcases mem_append.mp hc with hc | hc
      · exact hdg c hc
      · rwa [mem_singleton.mp hc]
    rw [parseDigits, digit_eq hch, ← decimal_append, append_assoc]
    by_cases hd : next ^^^ CHAR_0 ≤ 9
    · rw [if_pos hd, readNumber, NumberState.step, if_pos hd]
      exact ih (digits ++ [char]) ha next hd
    · rw [if_neg hd]
      refine parseFraction_eq (if_neg hd) ?_
      rw [NumberState.value, parseInt_signed hs (by simp) ha]

theorem parseUnsigned_eq {sign : ℤ} {chars : List ℕ} (hs : Signed sign chars)
    (hc : char ^^^ CHAR_0 ≤ 9) :
    outcome (p.parseUnsigned sign chars char rest) =
      outcome (readNumber p (if char ^^^ CHAR_0 = 0 then .zero else .digit) (chars ++ [char])
        rest) := by
  unfold parseUnsigned
  rw [if_neg (Nat.not_lt.mpr hc)]
  by_cases hzero : char ^^^ CHAR_0 = 0
  · rw [if_pos hzero, if_pos hzero]
    cases rest with
    | nil => rfl
    | cons next rest =>
      dsimp only
      by_cases hdigit : next ^^^ CHAR_0 ≤ 9
      · rw [if_pos hdigit, readNumber, NumberState.step, if_pos hdigit]
      · rw [if_neg hdigit]
        refine parseFraction_eq (if_neg hdigit) ?_
        rw [NumberState.value, Int.mul_zero]
  · rw [if_neg hzero, if_neg hzero]
    have h := parseDigits_eq (p := p) hs [] (by simp) char hc rest
    rwa [append_nil] at h

theorem parseUnsigned_error {sign : ℤ} (hc : ¬char ^^^ CHAR_0 ≤ 9) :
    outcome (p.parseUnsigned sign literal char rest) = .error .formatException := by
  unfold parseUnsigned
  rw [if_pos (Nat.lt_of_not_le hc)]
  split <;> rfl

/-- **A number, from its first character on.** -/
theorem parseNumber_minus : outcome (p.parseNumber MINUS rest) =
    outcome (readNumber p .sign [MINUS] rest) := by
  unfold parseNumber
  rw [if_pos rfl]
  cases rest with
  | nil => rfl
  | cons char rest =>
    rw [readNumber, NumberState.step]
    by_cases hdigit : char ^^^ CHAR_0 ≤ 9
    · rw [if_pos hdigit]
      exact parseUnsigned_eq (.inr ⟨rfl, rfl⟩) hdigit
    · rw [if_neg hdigit, parseUnsigned_error hdigit]
      rfl

theorem parseNumber_digit (hc : char ^^^ CHAR_0 ≤ 9) : outcome (p.parseNumber char rest) =
    outcome (readNumber p (if char ^^^ CHAR_0 = 0 then .zero else .digit) [char] rest) := by
  have hm : char ≠ MINUS := by
    have := (isDigit_iff char).mp hc
    unfold MINUS
    omega
  unfold parseNumber
  rw [if_neg hm]
  exact parseUnsigned_eq (.inl ⟨rfl, rfl⟩) hc

end Numbers


section Reading

variable {β L : Type} [JsonSource β] [JsonListener L]

theorem readNumber_reads {e : Option ℕ} {s : ℕ} {m : Machine β L} (state : NumberState)
    (literal rest : List ℕ) : Reads e s (m.withToken (.number state literal)) rest
      (readNumber ((m.withToken .none).toParser e s) state literal rest) := by
  induction rest generalizing state literal with
  | nil => exact reads_ok (.inr rfl)
  | cons char rest ih =>
    have hs : (m.withToken (.number state literal)).step char =
      match state.step char with
      | .next state => .ok (m.withToken (.number state (literal ++ [char])))
      | .stop => (m.withToken (.number state literal)).finish >>= fun m => m.start char
      | .fail => .error .formatException := rfl
    rw [readNumber]
    cases hn : state.step char with
    | next state' =>
      rw [hn] at hs
      exact (ih state' (literal ++ [char])).cons hs rfl
    | fail =>
      rw [hn] at hs
      exact reads_error hs
    | stop =>
      rw [hn] at hs
      have hf : (m.withToken (.number state literal)).finish =
        match state.value literal with
        | some value => (m.withToken .none).call (.handleNumber value)
        | none => .error .formatException := rfl
      rw [hf] at hs
      cases hv : state.value literal with
      | none =>
        rw [hv] at hs
        exact reads_error hs
      | some value =>
        rw [hv] at hs
        dsimp only at hs ⊢
        -- The character is still there for what comes next.
        intro α k final hk
        rw [run_cons, hs, outcome_bind, outcome_bind, toParser_call]
        cases hc : (m.withToken .none).call (.handleNumber value) with
        | error t => rfl
        | ok m' =>
          obtain ⟨ht, hp, -⟩ := call_fields hc
          refine (hk m' (char :: rest) (Nat.le_refl _) (.inl ht) hp).trans ?_
          rw [run_cons]
          have hst : m'.step char = m'.start char := by
            unfold step
            rw [ht]
          rw [hst]
          rfl

end Reading

end DartSdk.Convert.Machine
