import DartSdk.Convert.JsonParser.Machine

/-!
# Keywords and strings, read by the parser and by the machine

`Reads` relates a function of the parser to the machine: with whatever is done after it, it does what
the machine does on the characters that are left.  Every function that reads a token has such a
lemma, one for the start of the token in a chunk and one for its continuation in the next chunk.
-/

namespace DartSdk.Convert.Machine

open ChunkedJsonParser List Option LawfulJsonSource JsonSource

variable {β L : Type} [JsonSource β] [JsonListener L]

variable {e : Option ℕ} {s : ℕ} {m : Machine β L} {char : ℕ} {rest : List ℕ}

section Reading

variable {m₁ : Machine β L} {x x' : Except Thrown (Reading β L)}

/-- `x`, with whatever is done after it, does what the machine does on `rest`.  It ends between two
tokens or at the end of the chunk. -/
def Reads (e : Option ℕ) (s : ℕ) (m : Machine β L) (rest : List ℕ)
    (x : Except Thrown (Reading β L)) : Prop :=
  ∀ (α : Type) (k : Reading β L → Except Thrown α) (final : Machine β L → α),
    (∀ (m' : Machine β L) (rest' : List ℕ), rest'.length ≤ rest.length →
      m'.token = .none ∨ rest' = [] → m'.place = m.place →
      outcome (k (m'.toParser e s, rest')) = (m'.run rest').map final) →
    outcome (x >>= k) = (m.run rest).map final

theorem reads_ok (h : m.token = .none ∨ rest = []) :
    Reads e s m rest (.ok (m.toParser e s, rest)) :=
  fun _ _ _ hk => hk m rest (Nat.le_refl _) h rfl

theorem reads_error {t : Thrown} (hs : m.step char = .error t.type) :
    Reads e s m (char :: rest) (.error t) := by
  intro α k final _
  rw [run_cons, hs]
  rfl

theorem Reads.congr (h : Reads e s m rest x) (hx : outcome x' = outcome x) : Reads e s m rest x' := by
  intro α k final hk
  rw [← h α k final hk, outcome_bind, outcome_bind, hx]

theorem Reads.cons (h : Reads e s m₁ rest x) (hs : m.step char = .ok m₁)
    (hp : m₁.place = m.place) : Reads e s m (char :: rest) x := by
  intro α k final hk
  rw [run_cons, hs]
  refine h α k final fun m' rest' hl ht hm' => ?_
  exact hk m' rest' (Nat.le_succ_of_le hl) ht (hm'.trans hp)

theorem reads_step {y : Except ThrownType (Machine β L)} (hs : m.step char = y)
    (hx : outcome x = y.map fun m' => (m'.toParser e s, rest))
    (hy : ∀ m', y = .ok m' → m'.token = .none ∧ m'.place = m.place) :
    Reads e s m (char :: rest) x := by
  intro α k final hk
  rw [run_cons, hs, outcome_bind, hx]
  cases y with
  | error t => rfl
  | ok m' =>
    obtain ⟨ht, hp⟩ := hy m' rfl
    exact hk m' rest (Nat.le_succ _) (.inl ht) hp

variable {event : JsonEvent}

omit [JsonSource β] in
@[simp] theorem toParser_call :
    outcome ((m.toParser e s).call event) = (m.call event).map fun m => m.toParser e s := by
  unfold ChunkedJsonParser.call Machine.call
  rw [outcome_map]
  show (outcome (JsonListener.call m.listener event)).map _ = _
  cases outcome (JsonListener.call m.listener event) <;> rfl

omit [JsonSource β] in
theorem call_fields (h : m.call event = .ok m₁) :
    m₁.token = m.token ∧ m₁.place = m.place ∧ m₁.stack = m.stack := by
  unfold Machine.call at h
  cases hc : outcome (JsonListener.call m.listener event) with
  | error t =>
    rw [hc] at h
    cases h
  | ok l =>
    rw [hc] at h
    cases h
    exact ⟨rfl, rfl, rfl⟩

end Reading

section Keywords

theorem continueKeyword_reads (kind : Keyword) (count : ℕ) (rest : List ℕ) :
    Reads e s (m.withToken (.keyword kind count)) rest
      (continueKeyword ((m.withToken .none).toParser e s) kind.bits kind.chars count rest) := by
  induction rest generalizing count with
  | nil => exact reads_ok (.inr rfl)
  | cons char rest ih =>
    have hs : (m.withToken (.keyword kind count)).step char =
      readKeyword (m.withToken (.keyword kind count)) kind count char := rfl
    have he : (if kind.bits = KWD_NULL then JsonEvent.handleNull
        else .handleBool (decide (kind.bits = KWD_TRUE))) = kind.event := by cases kind <;> rfl
    unfold continueKeyword
    unfold readKeyword at hs
    rw [he]
    cases hc : kind.chars[count]? with
    | none =>
      rw [hc] at hs
      exact reads_error hs
    | some expectedChar =>
      rw [hc] at hs
      dsimp only at hs ⊢
      split_ifs at hs ⊢
      · exact reads_error hs
      · exact (ih (count + 1)).cons hs rfl
      · refine reads_step hs ?_ fun m' hm' => ?_
        · rw [outcome_bind, toParser_call]
          cases (m.withToken .none).call kind.event <;> rfl
        · obtain ⟨ht, hp, -⟩ := call_fields hm'
          exact ⟨ht, hp⟩

omit [JsonSource β] in
theorem continueKeyword_eq {p : ChunkedJsonParser β L} {type : ℕ} {chars : List ℕ}
    {event : JsonEvent}
    (he : event = if type = KWD_NULL then .handleNull else .handleBool (type = KWD_TRUE))
    {count : ℕ} (hc : count < chars.length) (rest : List ℕ) :
    outcome (p.continueKeyword type chars count rest) =
      if count + rest.length < chars.length then
        match keywordPrefixCount chars count rest with
        | none => .error .formatException
        | some count => .ok
            ({ p with partialState := PARTIAL_KEYWORD ||| type ||| count <<< KWD_COUNT_SHIFT }, [])
      else if rest.take (chars.length - count) ≠ chars.drop count then .error .formatException
      else (outcome (p.call event)).map fun p => (p, rest.drop (chars.length - count)) := by
  induction rest generalizing count with
  | nil =>
    rw [if_pos (by simpa using hc)]
    rfl
  | cons char rest ih =>
    have hd : chars.drop count = chars[count] :: chars.drop (count + 1) :=
      drop_eq_getElem_cons hc
    have ht : (char :: rest).take (chars.length - count) =
        char :: rest.take (chars.length - (count + 1)) := by
      rw [show chars.length - count = chars.length - (count + 1) + 1 by omega, take_succ_cons]
    have hg : chars[count]? = some chars[count] := getElem?_eq_getElem hc
    unfold continueKeyword keywordPrefixCount
    rw [hg, hd, ht, length_cons, ← he]
    dsimp only
    by_cases hne : char = chars[count]
    · subst hne
      rw [if_neg (by simp), if_pos rfl]
      by_cases hlast : count + 1 < chars.length
      · rw [if_pos hlast, ih hlast, show count + 1 + rest.length = count + (rest.length + 1) by omega,
          show chars.length - count = chars.length - (count + 1) + 1 by omega]
        simp only [ne_eq, List.cons.injEq, true_and, drop_succ_cons]
      have hn : chars.drop (count + 1) = [] := drop_eq_nil_of_le (by omega)
      have hz : chars.length - (count + 1) = 0 := by omega
      have ho : chars.length - count = 1 := by omega
      rw [if_neg hlast, if_neg (by omega), hn, hz, ho, take_zero,
        if_neg (fun h => h rfl), outcome_bind]
      cases outcome (p.call event) <;> rfl
    · have hne' : ¬some chars[count] = some char := fun h => hne (some.inj h).symm
      have hcn : char :: rest.take (chars.length - (count + 1)) ≠
          chars[count] :: chars.drop (count + 1) := fun h => hne (List.cons.inj h).1
      rw [if_pos hne, if_neg hne', if_pos hcn, ite_self]
      rfl

theorem parseKeyword_reads (kind : Keyword) (char : ℕ) (rest : List ℕ) :
    Reads e s (m.withToken (.keyword kind 1)) rest
      (parseKeyword ((m.withToken .none).toParser e s) (char :: rest)
        kind.chars kind.bits kind.event) := by
  have hl : 1 < kind.chars.length := by cases kind <;> decide
  refine (continueKeyword_reads kind 1 rest).congr ?_
  rw [continueKeyword_eq (by cases kind <;> rfl : kind.event = _) hl]
  generalize (m.withToken .none).toParser e s = p
  unfold parseKeyword parseKeywordPrefix
  have ht : ((char :: rest).take kind.chars.length).tail = rest.take (kind.chars.length - 1) := by
    rw [show kind.chars.length = kind.chars.length - 1 + 1 by omega, take_succ_cons,
      tail_cons, Nat.add_sub_cancel]
  rw [ht, length_cons, Nat.add_comm 1, drop_one]
  split_ifs
  · show outcome (match keywordPrefixCount kind.chars 1 rest with
      | none => _
      | some _ => _) = _
    cases keywordPrefixCount kind.chars 1 rest <;> rfl
  · rfl
  · have hd : (char :: rest).drop kind.chars.length = rest.drop (kind.chars.length - 1) := by
      rw [show kind.chars.length = kind.chars.length - 1 + 1 by omega, drop_succ_cons,
        Nat.add_sub_cancel]
    rw [outcome_bind, hd]
    cases outcome (p.call kind.event) <;> rfl

end Keywords

section Strings

/-- What `parseStringToBuffer` and `parsePartialString` do after an escape. -/
def resume (r : Reading β L) : Except Thrown (Reading β L) :=
  if r.2 = [] then .ok r else r.1.parseStringToBuffer [] r.2

variable {p : ChunkedJsonParser β L}

theorem parseStringToBuffer_cons {slice : List ℕ} {char : ℕ}
    {rest : List ℕ} :
    p.parseStringToBuffer slice (char :: rest) =
      if BACKSLASH < char then p.parseStringToBuffer (slice ++ [char]) rest
      else if char < SPACE then p.fail (char :: rest)
      else if char = QUOTE then do
        let p ← p.addSliceToString slice (char :: rest)
        let (p, value) ← p.endString
        let p ← p.call (.handleString value)
        .ok (p, rest)
      else if char ≠ BACKSLASH then p.parseStringToBuffer (slice ++ [char]) rest
      else (do
        let p ← p.addSliceToString slice (char :: rest)
        if rest = [] then .ok (p.chunkString STR_ESCAPE) else p.parseStringEscape rest >>= resume) := by
  rw [parseStringToBuffer]
  congr 4
  cases p.addSliceToString slice (char :: rest) with
  | error t => rfl
  | ok p =>
    show (if rest = [] then _ else _) = if rest = [] then _ else _
    congr 1
    split <;> rename_i h <;> rw [h] <;> rfl

variable {b b' : β} {slice : List ℕ}

def stringParser (m : Machine β L) (e : Option ℕ) (s : ℕ) (b : β) : ChunkedJsonParser β L :=
  ⟨e, s, m.stack.map Place.bits, NO_PARTIAL, .string b, m.listener⟩

theorem reads_addChar {m₁ : Machine β L} {char charCode : ℕ}
    (hs : m₁.step char = m.addChar b charCode) (hp : m.place = m₁.place)
    (ih : ∀ b, Reads e s (m.withToken (.plain b)) rest
      ((m.stringParser e s b).parseStringToBuffer [] rest)) :
    Reads e s m₁ (char :: rest) (do
      let p ← (m.stringParser e s b).addCharToString charCode
      p.parseStringToBuffer [] rest) := by
  have ha : outcome ((m.stringParser e s b).addCharToString charCode) =
      (outcome (addCharToString b charCode)).map (m.stringParser e s) := outcome_map
  unfold Machine.addChar at hs
  cases hb : outcome (addCharToString b charCode) with
  | error t =>
    rw [hb] at hs ha
    intro α k final hk
    rw [run_cons, hs, outcome_bind, outcome_bind, ha]
    rfl
  | ok b' =>
    rw [hb] at hs ha
    refine Reads.congr (Reads.cons (ih b') hs hp) ?_
    rw [outcome_bind, ha]
    rfl

theorem endStringEscape_resume {charCode : ℕ} {rest : List ℕ} :
    p.endStringEscape charCode rest >>= resume = (do
      let p ← p.addCharToString charCode
      p.parseStringToBuffer [] rest) := by
  unfold endStringEscape
  cases p.addCharToString charCode with
  | error t => rfl
  | ok p =>
    by_cases hrest : rest = []
    · subst hrest
      show Except.ok _ = p.parseStringToBuffer [] []
      rw [parseStringToBuffer]
      rfl
    · show resume (if rest = [] then _ else _) = _
      rw [if_neg hrest]
      exact if_neg hrest

/-- What comes after an escape is read, if it is shorter than `n`. -/
def ReadsAfter (e : Option ℕ) (s : ℕ) (m : Machine β L) (n : ℕ) : Prop :=
  ∀ b rest, rest.length < n → Reads e s (m.withToken (.plain b)) rest
    ((m.stringParser e s b).parseStringToBuffer [] rest)

theorem parseStringEscapeU_reads (he : List ℕ) (count : Fin 4) (value : ℕ) (rest : List ℕ)
    (ih : ReadsAfter e s m rest.length) : Reads e s (m.withToken (.unicode b count value)) rest
      ((m.stringParser e s b).parseStringEscapeU he count value rest >>= resume) := by
  induction rest generalizing count value with
  | nil =>
    rw [parseStringEscapeU, if_pos count.isLt]
    exact reads_ok (Or.inr rfl)
  | cons char rest ihrest =>
    have hs : (m.withToken (.unicode b count value)).step char =
      readUnicode (m.withToken (.unicode b count value)) b count value char := rfl
    unfold readUnicode at hs
    rw [parseStringEscapeU, if_pos count.isLt]
    cases hd : escapeDigit char with
    | none =>
      rw [hd] at hs
      exact reads_error hs
    | some digit =>
      rw [hd] at hs
      dsimp only at hs ⊢
      by_cases hcount : count.val + 1 < 4
      · rw [dif_pos hcount] at hs
        refine Reads.cons (ihrest ⟨count + 1, hcount⟩ _ fun b rest' hl => ?_) hs rfl
        exact ih b rest' (Nat.lt_succ_of_lt hl)
      rw [dif_neg hcount] at hs
      have hen : (m.stringParser e s b).parseStringEscapeU he (count + 1)
          (16 * value + digit) rest = (m.stringParser e s b).endStringEscape
            (16 * value + digit) rest := by
        cases rest <;> rw [parseStringEscapeU, if_neg hcount]
      rw [hen, endStringEscape_resume]
      exact reads_addChar hs rfl fun b => ih b rest (Nat.lt_succ_self _)

theorem parseStringEscape_reads (hr : rest ≠ []) (ih : ReadsAfter e s m rest.length) :
    Reads e s (m.withToken (.escape b)) rest
      ((m.stringParser e s b).parseStringEscape rest >>= resume) := by
  cases rest with
  | nil => exact absurd rfl hr
  | cons char rest =>
    have hs : (m.withToken (.escape b)).step char =
      readEscape (m.withToken (.escape b)) b char := rfl
    unfold readEscape at hs
    rw [parseStringEscape]
    cases hc : escapedChar char with
    | some charCode =>
      rw [hc] at hs
      rw [endStringEscape_resume]
      exact reads_addChar hs rfl fun b => ih b rest (Nat.lt_succ_self _)
    | none =>
      rw [hc] at hs
      dsimp only at hs ⊢
      by_cases hu : char = CHAR_u
      · rw [if_pos hu] at hs ⊢
        refine Reads.cons (parseStringEscapeU_reads _ 0 0 rest fun b rest' hl => ?_) hs rfl
        exact ih b rest' (Nat.lt_succ_of_lt hl)
      · rw [if_neg hu] at hs ⊢
        split <;> exact reads_error hs

theorem reads_handleString {m₁ : Machine β L} {value : Except ThrownType (List ℕ)}
    {x : Except Thrown (Reading β L)}
    (hs : m₁.step char = do
      let value ← value
      (m.withToken .none).call (.handleString value))
    (hp : m.place = m₁.place)
    (hx : outcome x = do
      let value ← value
      let m ← (m.withToken .none).call (.handleString value)
      .ok (m.toParser e s, rest)) :
    Reads e s m₁ (char :: rest) x := by
  refine reads_step hs ?_ fun m' hm' => ?_
  · rw [hx]
    cases value with
    | error t => rfl
    | ok value =>
      cases (m.withToken .none).call (.handleString value) <;> rfl
  · cases value with
    | error t => cases hm'
    | ok value =>
      obtain ⟨ht, hp', -⟩ := call_fields hm'
      exact ⟨ht, hp'.trans hp⟩

omit [JsonSource β] in
theorem outcome_handleString {value : List ℕ} :
    outcome (do
      let p ← ChunkedJsonParser.call ((m.withToken .none).toParser e s)
        (.handleString value)
      .ok (p, rest)) = (do
      let m ← (m.withToken .none).call (.handleString value)
      .ok (m.toParser e s, rest)) := by
  rw [outcome_bind, toParser_call]
  cases (m.withToken .none).call (.handleString value) <;> rfl

variable [LawfulJsonSource β]

omit [JsonListener L] in
theorem outcome_addSliceToString (hp : p.buffer = .string b) :
    outcome (p.addSliceToString slice rest) =
      (outcome (addSliceToString b 0 slice)).map fun b =>
        { p with buffer := .string b } := by
  unfold ChunkedJsonParser.addSliceToString
  by_cases h : slice = []
  · subst h
    rw [if_pos rfl, addSlice_nil]
    show Except.ok p = Except.ok { p with buffer := .string b }
    rw [← hp]
  · rw [if_neg h, hp, addSlice_start b 0 _ slice]
    exact outcome_map

omit [JsonListener L] in
theorem addSlice_outcome : outcome ((m.stringParser e s b).addSliceToString slice rest) =
    (outcome (addSliceToString b 0 slice)).map (m.stringParser e s) :=
  outcome_addSliceToString rfl

theorem outcome_parseStringToBuffer {t : ThrownType}
    (h : outcome (addSliceToString b 0 slice) = .error t) (rest : List ℕ) :
    outcome ((m.stringParser e s b).parseStringToBuffer slice rest) = .error .formatException := by
  have ht := addSlice_error b 0 slice t h
  subst ht
  induction rest generalizing slice with
  | nil =>
    rw [parseStringToBuffer, outcome_bind, addSlice_outcome, h]
    rfl
  | cons char rest ih =>
    have hn : outcome ((m.stringParser e s b).parseStringToBuffer (slice ++ [char]) rest) =
        .error .formatException := by
      refine ih ?_
      rw [addSlice_append b 0 0, h]
      rfl
    rw [parseStringToBuffer_cons]
    split
    · exact hn
    split
    · rfl
    split
    · rw [outcome_bind, addSlice_outcome, h]
      rfl
    split
    · exact hn
    · rw [outcome_bind, addSlice_outcome, h]
      rfl

theorem le_or_of_append {l : List ℕ} {bits char : ℕ} (h : ∀ c ∈ l, c ≤ bits) :
    ∀ c ∈ l ++ [char], c ≤ bits ||| char := by
  intro c hc
  rcases mem_append.mp hc with hc | hc
  · exact Nat.le_trans (h c hc) Nat.left_le_or
  · rw [mem_singleton.mp hc]
    exact Nat.right_le_or

theorem parseStringToBuffer_reads (hb : outcome (addSliceToString b 0 slice) = .ok b')
    (rest : List ℕ) : Reads e s (m.withToken (.plain b')) rest
      ((m.stringParser e s b).parseStringToBuffer slice rest) := by
  induction hn : rest.length using Nat.strongRecOn generalizing b b' slice rest with
  | ind n ih =>
    subst hn
    have had (rest) : outcome ((m.stringParser e s b).addSliceToString slice rest) =
        .ok (m.stringParser e s b') := by
      rw [addSlice_outcome, hb]
      rfl
    cases rest with
    | nil =>
      refine (reads_ok (.inr rfl)).congr ?_
      rw [parseStringToBuffer, outcome_bind, had]
      rfl
    | cons char rest =>
      have hs : (m.withToken (.plain b')).step char =
        readPlain (m.withToken (.plain b')) b' char := rfl
      -- A character that is part of the slice.
      have hp : (m.withToken (.plain b')).step char = (do
            let b ← outcome (addSliceToString b' 0 [char])
            .ok (m.withToken (.plain b))) →
          Reads e s (m.withToken (.plain b')) (char :: rest)
            ((m.stringParser e s b).parseStringToBuffer (slice ++ [char]) rest) := by
        intro hs
        have ha := addSlice_append b 0 0 slice [char]
        rw [hb] at ha
        cases hc : outcome (addSliceToString b' 0 [char]) with
        | error t =>
          have ht := addSlice_error b' 0 [char] t hc
          subst ht
          rw [hc] at hs
          intro α k final _
          rw [run_cons, hs, outcome_bind, outcome_parseStringToBuffer (ha.trans hc)]
          rfl
        | ok _ =>
          rw [hc] at hs
          exact Reads.cons (ih rest.length (Nat.lt_succ_self _) (ha.trans hc) rest rfl)
            hs rfl
      unfold readPlain at hs
      rw [parseStringToBuffer_cons]
      by_cases hlarge : BACKSLASH < char
      · rw [if_pos hlarge]
        unfold BACKSLASH at hlarge
        rw [if_neg (by unfold SPACE; omega), if_neg (by unfold QUOTE; omega),
          if_neg (by unfold BACKSLASH; omega)] at hs
        exact hp hs
      rw [if_neg hlarge]
      by_cases hcontrol : char < SPACE
      · rw [if_pos hcontrol] at hs ⊢
        exact reads_error hs
      rw [if_neg hcontrol] at hs ⊢
      by_cases hquote : char = QUOTE
      · rw [if_pos hquote] at hs ⊢
        refine reads_handleString hs rfl ?_
        rw [outcome_bind, had]
        show outcome ((m.stringParser e s b').endString >>= _) = _
        rw [outcome_bind, show outcome (m.stringParser e s b').endString =
          (outcome (endString b')).map fun value =>
            ((m.withToken .none).toParser e s, value) from outcome_map]
        cases outcome (endString b') with
        | error t => rfl
        | ok value => exact outcome_handleString
      rw [if_neg hquote] at hs ⊢
      by_cases hbackslash : char = BACKSLASH
      · rw [if_pos hbackslash] at hs
        rw [if_neg (not_not.mpr hbackslash)]
        by_cases hrest : rest = []
        · subst hrest
          refine Reads.congr (Reads.cons (reads_ok (.inr rfl)) hs rfl) ?_
          rw [outcome_bind, had]
          rfl
        · refine Reads.congr (Reads.cons (parseStringEscape_reads hrest fun b rest' hl => ?_)
            hs rfl) ?_
          · exact ih rest'.length (Nat.lt_succ_of_lt hl) (addSlice_nil b 0) rest' rfl
          · rw [outcome_bind, had]
            show outcome (if rest = [] then _ else _) = _
            rw [if_neg hrest]
            rfl
      · rw [if_neg hbackslash] at hs
        rw [if_pos hbackslash]
        exact hp hs

/-- A string is put into a buffer only when it has to be; that makes no difference. -/
theorem outcome_parseString (hp : p.buffer = .null) {bits : ℕ}
    (hb : ∀ c ∈ slice, c ≤ bits) (rest : List ℕ) :
    outcome (p.parseString slice bits rest) =
      outcome (p.beginString.parseStringToBuffer slice rest) := by
  induction rest generalizing slice bits with
  | nil => rw [parseString, parseStringToBuffer]
  | cons char rest ih =>
    rw [parseString, parseStringToBuffer_cons]
    by_cases hlarge : BACKSLASH < char
    · rw [if_pos hlarge, if_pos hlarge, ih (le_or_of_append hb)]
    rw [if_neg hlarge, if_neg hlarge]
    by_cases hbackslash : char = BACKSLASH
    · have hcn : ¬char < SPACE := by rw [hbackslash]; decide
      have hq : char ≠ QUOTE := by rw [hbackslash]; decide
      rw [if_pos hbackslash, if_neg hcn, if_neg hq, if_neg (not_not.mpr hbackslash)]
      cases p.beginString.addSliceToString slice (char :: rest) with
      | error t => rfl
      | ok p =>
        show outcome (p.parseStringToBuffer [] (char :: rest)) = _
        rw [parseStringToBuffer_cons, if_neg hlarge, if_neg hcn, if_neg hq,
          if_neg (not_not.mpr hbackslash)]
        rfl
    rw [if_neg hbackslash]
    by_cases hq : char = QUOTE
    · have hcn : ¬char < SPACE := by rw [hq]; decide
      have hle : ∀ c ∈ slice, c ≤ bits ||| char := fun c hc =>
        Nat.le_trans (hb c hc) Nat.left_le_or
      rw [if_pos hq, if_neg hcn, if_pos hq, outcome_bind, outcome_bind,
        outcome_addSliceToString rfl]
      unfold ChunkedJsonParser.getString
      rw [getString_eq _ _ _ hle, addSlice_start _ _ 0]
      cases outcome (addSliceToString (beginString : β) 0 slice) with
      | error t => rfl
      | ok b =>
        show (outcome (endString b) >>= _) =
          outcome ((endString b).map _ >>= _)
        rw [outcome_bind, outcome_map]
        cases outcome (endString b) with
        | error t => rfl
        | ok _ =>
          show _ = outcome (ChunkedJsonParser.call { p with buffer := .null } _ >>= _)
          rw [← hp]
          rfl
    rw [if_neg hq]
    by_cases hcn : char < SPACE
    · rw [if_pos hcn, if_pos hcn]
      rfl
    · rw [if_neg hcn, if_neg hcn, if_neg hq, if_pos hbackslash,
        ih (le_or_of_append hb)]

theorem parseString_reads : Reads e s (m.withToken (.plain beginString)) rest
    (parseString ((m.withToken .none).toParser e s) [] 0 rest) :=
  (parseStringToBuffer_reads (addSlice_nil _ 0) rest).congr
    (outcome_parseString rfl (by simp) rest)

theorem xor_xor_self (a b : ℕ) : a ^^^ b ^^^ b = a := by
  rw [Nat.xor_assoc, Nat.xor_self, Nat.xor_zero]

theorem parseHexDigit_eq (char : ℕ) : parseHexDigit char = escapeDigit char := by
  have hl : ∀ c : ℕ, (if c ^^^ 0x60 ≤ 6 ∧ 0 < c ^^^ 0x60 then some ((c ^^^ 0x60) + 9) else none) =
      if CHAR_a ≤ c ∧ c - CHAR_a ≤ 5 then some (c - CHAR_a + 10) else none := by
    intro c
    by_cases h : c < 0x80
    · revert c
      decide
    have hlr : 0x80 ≤ c ^^^ 0x60 := by
      by_contra hsmall
      have hlt : c ^^^ 0x60 ^^^ 0x60 < 2 ^ 7 := Nat.xor_lt_two_pow (by omega) (by decide)
      rw [xor_xor_self] at hlt
      omega
    rw [if_neg (by omega), if_neg (by unfold CHAR_a; omega)]
  unfold parseHexDigit escapeDigit
  rw [hl]

theorem continueEscapeU_reads (count : Fin 4) (value : ℕ) (rest : List ℕ) :
    Reads e s (m.withToken (.unicode b count value)) rest
      ((m.stringParser e s b).continueEscapeU count value rest) := by
  have heq (rest : List ℕ) (i value : ℕ) :
      outcome ((m.stringParser e s b).continueEscapeU i value rest) =
        outcome ((m.stringParser e s b).parseStringEscapeU [] i value rest >>= resume) := by
    induction rest generalizing i value with
    | nil =>
      unfold continueEscapeU parseStringEscapeU
      split_ifs with hi
      · rfl
      · rw [endStringEscape_resume]
    | cons char rest ih =>
      unfold continueEscapeU parseStringEscapeU
      split_ifs with hi
      · rw [parseHexDigit_eq]
        cases escapeDigit char with
        | none => rfl
        | some digit => exact ih (i + 1) (16 * value + digit)
      · rw [endStringEscape_resume]
  refine (parseStringEscapeU_reads [] count value rest fun b rest' _ => ?_).congr (heq rest count value)
  exact parseStringToBuffer_reads (addSlice_nil b 0) rest'

end Strings

end DartSdk.Convert.Machine
