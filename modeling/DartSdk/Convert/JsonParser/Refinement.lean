import DartSdk.Convert.JsonParser.Invariant

/-!
# The chunked parser does what the machine does

* `parse_eq`: a chunk is a run of the machine;
* `parseChunks_eq`: so are all the chunks, one after the other;
* `jsonEvents_chunks`: **the way in which a text is cut into chunks does not matter**.
-/

namespace DartSdk.Convert.Machine

open ChunkedJsonParser Place

variable {β L : Type} [JsonSource β] [JsonListener L]

variable {e : Option ℕ} {s : ℕ} {m : Machine β L} {rest : List ℕ}

section Loop

variable {char : ℕ}

theorem parseLoop_cons {p : ChunkedJsonParser β L} {state : ℕ} :
    p.parseLoop state (char :: rest) = (do
      let (p, state, rest) ← p.parseChar state char rest
      p.parseLoop state rest) := by
  rw [parseLoop]
  split <;> rename_i h <;> rw [h] <;> rfl

/-- What the rest of the loop does, by induction. -/
def LoopRuns (β L : Type) [JsonSource β] [JsonListener L] (e : Option ℕ) (s n : ℕ) : Prop :=
  ∀ (m : Machine β L) (rest : List ℕ), rest.length ≤ n → m.token = .none ∨ rest = [] →
    outcome ((m.toParser e s).parseLoop m.place.bits rest) =
      (m.run rest).map fun m => m.toParser e m.place.bits

/-- After `x` the loop gives what the machine gives in `y`. -/
def Follows (e : Option ℕ) (x : Except Thrown (ChunkedJsonParser β L × ℕ × List ℕ))
    (y : Except ThrownType (Machine β L)) : Prop :=
  outcome (x >>= fun (p, state, rest) => p.parseLoop state rest) =
    y.map fun m => m.toParser e m.place.bits

section

variable {a b : Except ThrownType (Machine β L)}
  {x y : Except Thrown (ChunkedJsonParser β L × ℕ × List ℕ)}

theorem follows_ite {c : Prop} [Decidable c] (hs : m.step char = if c then a else b)
    (h : c → m.step char = a → Follows e x (m.run (char :: rest)))
    (h' : ¬c → m.step char = b → Follows e y (m.run (char :: rest))) :
    Follows e (if c then x else y) (m.run (char :: rest)) := by
  split_ifs at hs ⊢ with hc
  · exact h hc hs
  · exact h' hc hs

theorem follows_bits {place : Place} (hs : m.step char = if m.place = place then a else b)
    (h : Follows e x (a >>= fun m => m.run rest))
    (h' : m.step char = b → Follows e y (m.run (char :: rest))) :
    Follows e (if m.place.bits = place.bits then x else y) (m.run (char :: rest)) := by
  simp only [bits_inj]
  refine follows_ite hs (fun _ hs => ?_) fun _ => h'
  rw [run_cons, hs]
  exact h

end

section

variable (ih : LoopRuns β L e s rest.length)

include ih

theorem readValue_loop {begin : Machine β L → Except ThrownType (Machine β L)} {allowed : Bool}
    {mask : ℕ} {read : Except Thrown (Reading β L)} {chars : List ℕ}
    (hs : m.step char = m.beginToken allowed begin)
    (hm : m.place.bits &&& mask ≠ 0 ↔ allowed = false)
    (hr : match begin { m with place := m.place.after } with
      | .ok m' => m'.place = m.place.after ∧ Reads e s m' rest read
      | .error t => outcome read = .error t) :
    Follows e ((m.toParser e s).readValue m.place.bits mask chars read) (m.run (char :: rest)) := by
  unfold beginToken at hs
  unfold Follows readValue
  rw [run_cons, hs]
  cases ha : allowed with
  | false =>
    rw [if_pos (hm.mpr ha)]
    rfl
  | true =>
    rw [if_neg (mt hm.mp (by simp [ha])), if_pos rfl]
    rw [bind_assoc]
    cases hb : begin { m with place := m.place.after } with
    | error t =>
      rw [hb] at hr
      rw [outcome_bind, hr]
      rfl
    | ok m' =>
      rw [hb] at hr
      obtain ⟨hp, hrd⟩ := hr
      refine hrd _ _ _ fun m'' rest' hl htk hp' => ?_
      show outcome ((m''.toParser e s).parseLoop (m.place.bits ||| VALUE_READ_BITS) rest') = _
      rw [bits_after, ← hp, ← hp']
      exact ih m'' rest' hl htk

variable (htk : m.token = .none)

include htk

theorem openContainer_loop {event : JsonEvent} {place : Place}
    (hs : m.step char = m.openContainer event place) :
    Follows e ((m.toParser e s).openContainer m.place.bits char rest event place.bits)
      (m.run (char :: rest)) := by
  unfold Machine.openContainer at hs
  unfold Follows ChunkedJsonParser.openContainer
  rw [run_cons, hs]
  cases ha : m.place.allowsValue with
  | false =>
    rw [if_pos ((bits_allowsValue _).mpr ha)]
    rfl
  | true =>
    rw [if_neg (mt (bits_allowsValue _).mp (by simp [ha])), if_pos rfl, outcome_bind,
      outcome_bind, toParser_call]
    cases hc : m.call event with
    | error t => rfl
    | ok m' =>
      obtain ⟨ht, -, hst⟩ := call_fields hc
      refine Eq.trans ?_ (ih { m' with place := place, stack := m.place :: m.stack } rest
        (Nat.le_refl _) (.inl (ht.trans htk)))
      rw [← hst]
      rfl

theorem restore_loop :
    Follows e (do
        let (p, state) ← (m.toParser e s).restoreState
        .ok (p, state ||| VALUE_READ_BITS, rest))
      (m.restore >>= fun m => m.run rest) := by
  unfold Follows restoreState restore
  have hs : (m.toParser e s).states = m.stack.map bits := rfl
  rw [hs]
  cases m.stack with
  | nil => rfl
  | cons place stack =>
    show outcome (parseLoop _ (place.bits ||| VALUE_READ_BITS) rest) = _
    rw [bits_after]
    exact ih { m with place := place.after, stack := stack } rest (Nat.le_refl _) (.inl htk)

theorem closeContainer_loop {empty value : Place} {valueEvent endEvent : JsonEvent}
    (hs : m.step char = m.closeContainer empty value valueEvent endEvent) :
    Follows e ((m.toParser e s).closeContainer m.place.bits char rest empty.bits value.bits valueEvent
      endEvent) (m.run (char :: rest)) := by
  unfold Machine.closeContainer at hs
  unfold ChunkedJsonParser.closeContainer
  rw [run_cons, hs]
  -- The calls of the listener, and then what is the same in all cases.
  have hc : ∀ {x : Except Thrown (ChunkedJsonParser β L)} {y : Except ThrownType (Machine β L)},
      outcome x = y.map (fun m => m.toParser e s) → (∀ m', y = .ok m' → m'.token = .none) →
      Follows e (do
          let p ← x
          let (p, state) ← p.restoreState
          .ok (p, state ||| VALUE_READ_BITS, rest))
        ((y >>= fun m => m.restore) >>= fun m => m.run rest) := by
    intro x y hxy hy
    unfold Follows
    cases y with
    | error t =>
      rw [outcome_bind, outcome_bind, hxy]
      rfl
    | ok m' =>
      refine Eq.trans ?_ (restore_loop ih (hy m' rfl))
      rw [outcome_bind, outcome_bind, hxy, outcome_bind]
      rfl
  by_cases hempty : m.place = empty
  · rw [if_pos (bits_inj.mpr hempty), if_pos hempty]
    refine hc toParser_call fun m' hm' => ?_
    exact (call_fields hm').1.trans htk
  rw [if_neg (fun h => hempty (bits_inj.mp h)), if_neg hempty]
  by_cases hvalue : m.place = value
  · rw [if_pos (bits_inj.mpr hvalue), if_pos hvalue]
    refine hc ?_ fun m' hm' => ?_
    · rw [outcome_bind, toParser_call]
      cases m.call valueEvent with
      | error t => rfl
      | ok m' => exact toParser_call
    · cases hcl : m.call valueEvent with
      | error t =>
        rw [hcl] at hm'
        cases hm'
      | ok _ =>
        rw [hcl] at hm'
        exact (call_fields hm').1.trans ((call_fields hcl).1.trans htk)
  · rw [if_neg (fun h => hvalue (bits_inj.mp h)), if_neg hvalue]
    rfl

theorem call_loop {event : JsonEvent} (place : Place) :
    Follows e (do
        let p ← (m.toParser e s).call event
        .ok (p, place.bits, rest))
      ((do
        let m ← m.call event
        .ok { m with place := place }) >>= fun m : Machine β L => m.run rest) := by
  rw [Follows, outcome_bind, outcome_bind, toParser_call]
  cases hc : m.call event with
  | error t => rfl
  | ok m' =>
    exact ih { m' with place := place } rest (Nat.le_refl _)
      (.inl ((call_fields hc).1.trans htk))

theorem parseColon_loop (hs : m.step char = m.readColon) :
    Follows e ((m.toParser e s).parseColon m.place.bits char rest) (m.run (char :: rest)) := by
  unfold readColon at hs
  unfold parseColon
  rw [ite_not]
  refine follows_bits hs (call_loop ih htk .objectColon) fun hs => ?_
  rw [run_cons, hs]
  rfl

theorem parseComma_loop (hs : m.step char = m.readComma) :
    Follows e ((m.toParser e s).parseComma m.place.bits char rest) (m.run (char :: rest)) := by
  unfold readComma at hs
  unfold parseComma
  refine follows_bits hs (call_loop ih htk .objectComma) fun hs =>
    follows_bits hs (call_loop ih htk .arrayComma) fun hs => ?_
  rw [run_cons, hs]
  rfl

end

theorem beginNumber_reads {m₁ : Machine β L} (h : (m.withToken .none).beginNumber char = .ok m₁) :
    m₁.place = m.place ∧
      Reads e s m₁ rest (((m.withToken .none).toParser e s).parseNumber char rest) := by
  unfold beginNumber at h
  split at h
  · rename_i hm
    cases h
    subst hm
    exact ⟨rfl, (readNumber_reads .sign [MINUS] rest).congr parseNumber_minus⟩
  · split at h
    · rename_i hd
      cases h
      exact ⟨rfl, (readNumber_reads _ [char] rest).congr (parseNumber_digit hd)⟩
    · cases h

omit [JsonSource β] in
theorem beginNumber_error {t : ThrownType} {p : ChunkedJsonParser β L}
    (h : m.beginNumber char = .error t) : outcome (p.parseNumber char rest) = .error t := by
  unfold beginNumber at h
  split at h
  · cases h
  rename_i hm
  split at h
  · cases h
  rename_i hd
  cases h
  unfold parseNumber
  rw [if_neg hm]
  exact parseUnsigned_error hd

variable [LawfulJsonSource β]

/-- **The loop of `parse` is a run of the machine.** -/
theorem parseLoop_eq (n : ℕ) : LoopRuns β L e s n := by
  induction n with
  | zero =>
    intro m rest hl htk
    obtain rfl : rest = [] := List.length_eq_zero_iff.mp (Nat.le_zero.mp hl)
    rw [parseLoop]
    rfl
  | succ n ih =>
    intro m rest hl htk
    cases rest with
    | nil =>
      rw [parseLoop]
      rfl
    | cons char rest =>
      have htk : m.token = .none := htk.resolve_right (by simp)
      have ih : LoopRuns β L e s rest.length := fun m' rest' hr' =>
        ih m' rest' (by simp only [List.length_cons] at hl; omega)
      have hp : m.toParser e s =
          (withToken { m with place := m.place.after } .none).toParser e s := by
        unfold toParser
        rw [htk]
      have hs : m.step char = m.start char := by
        unfold step
        rw [htk]
      rw [parseLoop_cons]
      unfold parseChar
      unfold start at hs
      have hk (kind : Keyword) (hs : m.step char = m.beginToken m.place.allowsValue fun m =>
          .ok (m.withToken (.keyword kind 1))) :
          Follows e ((m.toParser e s).readValue m.place.bits ALLOW_VALUE_MASK (char :: rest)
            ((m.toParser e s).parseKeyword (char :: rest) kind.chars kind.bits kind.event))
            (m.run (char :: rest)) := by
        refine readValue_loop ih hs (bits_allowsValue _) ⟨rfl, ?_⟩
        rw [hp]
        exact parseKeyword_reads kind char rest
      refine follows_ite hs (fun _ hs => ?_) fun _ hs => ?_
      · rw [run_cons, hs]
        exact ih m rest (Nat.le_refl _) (.inl htk)
      refine follows_ite hs (fun _ hs => ?_) fun _ hs => ?_
      · refine readValue_loop ih hs (bits_allowsString _) ⟨rfl, ?_⟩
        rw [hp]
        exact parseString_reads
      refine follows_ite hs (fun _ => openContainer_loop ih htk) fun _ hs => ?_
      refine follows_ite hs (fun _ => openContainer_loop ih htk) fun _ hs => ?_
      refine follows_ite hs (fun _ => hk .null) fun _ hs => ?_
      refine follows_ite hs (fun _ => hk .false) fun _ hs => ?_
      refine follows_ite hs (fun _ => hk .true) fun _ hs => ?_
      refine follows_ite hs (fun _ => parseColon_loop ih htk) fun _ hs => ?_
      refine follows_ite hs (fun _ => parseComma_loop ih htk) fun _ hs => ?_
      refine follows_ite hs (fun _ => closeContainer_loop ih htk) fun _ hs => ?_
      refine follows_ite hs (fun _ => closeContainer_loop ih htk) fun _ hs => ?_
      refine readValue_loop ih hs (bits_allowsValue _) ?_
      cases hb : beginNumber { m with place := m.place.after } char with
      | error t => exact beginNumber_error hb
      | ok _ =>
        rw [hp]
        refine beginNumber_reads (m := { m with place := m.place.after }) ?_
        rw [← hb, ← htk]

end Loop

section PartialBits

theorem unicode_bits (count : Fin 4) (value : ℕ) :
    PARTIAL_STRING ||| STR_U ||| count.val <<< STR_U_COUNT_SHIFT ||| value <<< STR_U_VALUE_SHIFT =
      32 * value + (17 + 4 * count.val) := by
  have hl : PARTIAL_STRING ||| STR_U ||| count.val <<< STR_U_COUNT_SHIFT = 17 + 4 * count.val := by
    revert count
    decide
  have hlt : 17 + 4 * count.val < 2 ^ 5 := by
    have := count.isLt
    omega
  rw [hl, Nat.or_comm, show STR_U_VALUE_SHIFT = 5 from rfl, ← Nat.shiftLeft_add_eq_or_of_lt hlt,
    Nat.shiftLeft_eq]
  omega

theorem keyword_bits (kind : Keyword) (count : ℕ) :
    PARTIAL_KEYWORD ||| kind.bits ||| count <<< KWD_COUNT_SHIFT = 16 * count + (3 + kind.bits) := by
  have hl : PARTIAL_KEYWORD ||| kind.bits = 3 + kind.bits := by cases kind <;> decide
  have hlt : 3 + kind.bits < 2 ^ 4 := by cases kind <;> decide
  rw [hl, Nat.or_comm, show KWD_COUNT_SHIFT = 4 from rfl, ← Nat.shiftLeft_add_eq_or_of_lt hlt,
    Nat.shiftLeft_eq]
  omega

theorem and_mask (x : ℕ) : x &&& MASK_PARTIAL = x % 4 := Nat.and_two_pow_sub_one_eq_mod x 2

theorem clearPartial_eq (x : ℕ) : clearPartial x = x / 4 * 4 := by
  rw [clearPartial, Nat.shiftRight_eq_div_pow, Nat.shiftLeft_eq]

theorem keywordType_eq (kind : Keyword) (count : ℕ) :
    16 * count + kind.bits &&& KWD_TYPE_MASK = kind.bits := by
  have hlt : kind.bits < 2 ^ 4 := by cases kind <;> decide
  have hmd : 16 * count + kind.bits &&& 2 ^ 4 - 1 = kind.bits := by
    rw [Nat.and_two_pow_sub_one_eq_mod]
    omega
  have hm : KWD_TYPE_MASK = (2 ^ 4 - 1) &&& KWD_TYPE_MASK := by decide
  rw [hm, ← Nat.and_assoc, hmd]
  cases kind <;> decide

end PartialBits

section Parsing

theorem parsePartialKeyword_reads (kind : Keyword) (count : ℕ) (rest : List ℕ) :
    Reads e s (m.withToken (.keyword kind count)) rest
      (parsePartialKeyword ((m.withToken .none).toParser e s) rest (16 * count + kind.bits)) := by
  have hi : [keywordNull, keywordTrue, keywordFalse][kind.bits >>> KWD_TYPE_SHIFT]? =
      some kind.chars := by cases kind <;> rfl
  have hc : (16 * count + kind.bits) >>> KWD_COUNT_SHIFT = count := by
    have hlt : kind.bits < 16 := by cases kind <;> decide
    rw [show KWD_COUNT_SHIFT = 4 from rfl, Nat.shiftRight_eq_div_pow]
    omega
  unfold parsePartialKeyword
  dsimp only
  rw [keywordType_eq, hi, hc]
  exact continueKeyword_reads kind count rest

/-- The type of a token that is not complete is in the last two bits. -/
theorem parsePartial_eq {p : ChunkedJsonParser β L} (hr : rest ≠ []) {k t : ℕ} (ht : t < 4)
    (hp : p.partialState = 4 * k + t) :
    p.parsePartial rest =
      if t = PARTIAL_STRING then parsePartialString { p with partialState := NO_PARTIAL } rest (4 * k)
      else if t = PARTIAL_NUMERAL then
        parsePartialNumber { p with partialState := NO_PARTIAL } rest (4 * k)
      else if t = PARTIAL_KEYWORD then
        parsePartialKeyword { p with partialState := NO_PARTIAL } rest (4 * k)
      else .ok ({ p with partialState := NO_PARTIAL }, rest) := by
  have hty : p.partialState % 4 = t := by omega
  have hs : p.partialState / 4 * 4 = 4 * k := by omega
  unfold parsePartial
  rw [if_neg hr]
  rw [and_mask, clearPartial_eq, hty, hs]

variable [LawfulJsonSource β]

/-- **The continuation of a token in the next chunk.** -/
theorem parsePartial_reads (hm : m.Wf) (htk : m.token ≠ .none) (hr : rest ≠ []) :
    Reads e s m rest ((m.toParser e s).parsePartial rest) := by
  obtain ⟨place, stack, token, listener⟩ := m
  cases token with
  | none => exact absurd rfl htk
  | plain b =>
    rw [parsePartial_eq hr (k := 0) (t := PARTIAL_STRING) (by decide) rfl]
    exact parseStringToBuffer_reads (m := ⟨place, stack, .none, listener⟩)
      (LawfulJsonSource.addSlice_nil b 0) rest
  | escape b =>
    rw [parsePartial_eq hr (k := 1) (t := PARTIAL_STRING) (by decide) rfl]
    exact parseStringEscape_reads (m := ⟨place, stack, .none, listener⟩) hr fun b rest' _ =>
      parseStringToBuffer_reads (LawfulJsonSource.addSlice_nil b 0) rest'
  | unicode b count value =>
    have hc := count.isLt
    have hb := unicode_bits count value
    rw [parsePartial_eq hr (k := 8 * value + 4 + count.val) (t := PARTIAL_STRING) (by decide)
      (hb.trans (by unfold PARTIAL_STRING; omega)), if_pos rfl, parsePartialString,
      if_neg (by unfold STR_PLAIN; omega), if_neg (by unfold STR_ESCAPE; omega)]
    have hd : (4 * (8 * value + 4 + count.val)) >>> STR_U_COUNT_SHIFT &&& TWO_BIT_MASK =
        count.val := by
      rw [show STR_U_COUNT_SHIFT = 2 from rfl, Nat.shiftRight_eq_div_pow]
      exact (and_mask _).trans (by omega)
    have hv : (4 * (8 * value + 4 + count.val)) >>> STR_U_VALUE_SHIFT = value := by
      rw [show STR_U_VALUE_SHIFT = 5 from rfl, Nat.shiftRight_eq_div_pow]
      omega
    rw [hd, hv]
    exact continueEscapeU_reads (m := ⟨place, stack, .none, listener⟩) count value rest
  | number state literal =>
    have hb : 4 * (state.bits / 4) = state.bits := by cases state <;> decide
    rw [parsePartial_eq hr (k := state.bits / 4) (t := PARTIAL_NUMERAL) (by decide)
      (show PARTIAL_NUMERAL ||| state.bits = _ by cases state <;> decide), if_neg (by decide),
      if_pos rfl, hb]
    refine (readNumber_reads (m := ⟨place, stack, .none, listener⟩) state literal rest).congr ?_
    refine parsePartialNumber_eq rfl (fun h => ?_) (fun h => ?_) hr
    · subst h
      exact hm.token
    · subst h
      exact hm.token
  | keyword kind count =>
    have hb : 4 * (kind.bits / 4) = kind.bits := by cases kind <;> decide
    have hk : 4 * (4 * count + kind.bits / 4) = 16 * count + kind.bits := by omega
    rw [parsePartial_eq hr (k := 4 * count + kind.bits / 4) (t := PARTIAL_KEYWORD) (by decide)
      ((keyword_bits kind count).trans (by unfold PARTIAL_KEYWORD; omega)), if_neg (by decide), if_neg (by decide), if_pos rfl,
      hk]
    exact parsePartialKeyword_reads (m := ⟨place, stack, .none, listener⟩) kind count rest

theorem parse_eq (hm : m.Wf) (e : Option ℕ) (chunk : List ℕ) :
    outcome ((m.toParser e m.place.bits).parse chunk) =
      (m.run chunk).map fun m => m.toParser (some chunk.length) m.place.bits := by
  show outcome (if m.token.partialState ≠ NO_PARTIAL then _ else _) = _
  by_cases htk : m.token = .none
  · have hs : m.token.partialState = NO_PARTIAL := by
      rw [htk]
      rfl
    rw [if_neg (not_not.mpr hs)]
    exact parseLoop_eq chunk.length m chunk (Nat.le_refl _) (.inl htk)
  have hs : m.token.partialState ≠ NO_PARTIAL := by
    cases h : m.token with
    | none => exact absurd h htk
    | plain b | escape b => rintro ⟨⟩
    | unicode b count value =>
      have hb := unicode_bits count value
      show PARTIAL_STRING ||| STR_U ||| count.val <<< STR_U_COUNT_SHIFT |||
        value <<< STR_U_VALUE_SHIFT ≠ 0
      omega
    | number state _ => cases state <;> rintro ⟨⟩
    | keyword kind count =>
      have hb := keyword_bits kind count
      show PARTIAL_KEYWORD ||| kind.bits ||| count <<< KWD_COUNT_SHIFT ≠ 0
      omega
  rw [if_pos hs]
  by_cases hchunk : chunk = []
  · subst hchunk
    rfl
  refine parsePartial_reads hm htk hchunk _ _ _ fun m' rest' _ ht' hp => ?_
  show outcome (if rest' = [] then _ else _) = _
  by_cases hrest : rest' = []
  · subst hrest
    rw [if_pos rfl, ← hp]
    rfl
  rw [if_neg hrest]
  have h := parseLoop_eq (e := some chunk.length) (s := m.place.bits) rest'.length m' rest'
    (Nat.le_refl _) ht'
  rw [hp] at h
  exact h

end Parsing

section Closing

variable {p : ChunkedJsonParser β L}

omit [JsonSource β] [JsonListener L] in
theorem finished_eq {place : Place} (hp : p.state = place.bits) :
    (outcome (if p.state ≠ STATE_END then p.fail [] else .ok p)).map (fun p => p.listener) =
      if place = .finished then .ok p.listener else .error .formatException := by
  have hb : p.state = STATE_END ↔ place = .finished := by
    rw [hp]
    exact (bits_inj : place.bits = finished.bits ↔ _)
  by_cases hplace : place = .finished
  · rw [if_neg (not_not.mpr (hb.mpr hplace)), if_pos hplace]
    rfl
  · rw [if_pos (mt hb.mp hplace), if_neg hplace]
    rfl

omit [JsonSource β] in
theorem closePartial_error (hb : p.partialState ≠ NO_PARTIAL)
    (ht : p.partialState % 4 ≠ PARTIAL_NUMERAL) :
    outcome p.closePartial = .error .formatException := by
  unfold closePartial
  rw [if_pos hb, and_mask, if_neg ht]
  split <;> rfl

omit [JsonSource β] in
theorem closePartial_number {state : NumberState} {literal : List ℕ}
    (hb : p.partialState = PARTIAL_NUMERAL ||| state.bits) (hp : p.buffer = .number literal) :
    p.closePartial =
      (finishChunkNumber { p with buffer := .null } literal state.bits [] []).map Prod.fst := by
  obtain ⟨hne, htype, hstate⟩ : p.partialState ≠ NO_PARTIAL ∧
      p.partialState % 4 = PARTIAL_NUMERAL ∧ clearPartial p.partialState = state.bits := by
    rw [hb]
    cases state <;> decide
  unfold closePartial
  rw [if_pos hne, and_mask, if_pos htype, hp, hstate]

omit [JsonSource β] in
theorem close_eq : (outcome (m.toParser e m.place.bits).close).map (fun p => p.listener) =
    m.close := by
  unfold ChunkedJsonParser.close
  rw [outcome_bind]
  obtain ⟨place, stack, token, listener⟩ := m
  cases token with
  | none => exact finished_eq rfl
  | plain b | escape b =>
    rw [closePartial_error]
    · rfl
    · exact nofun
    · simp [toParser, Token.partialState, PARTIAL_STRING, STR_PLAIN, STR_ESCAPE, PARTIAL_NUMERAL]
  | unicode b count value =>
    have hb : (Token.unicode b count value).partialState = _ := unicode_bits count value
    rw [closePartial_error]
    · rfl
    · show (Token.unicode b count value).partialState ≠ 0
      omega
    · show (Token.unicode b count value).partialState % 4 ≠ 2
      omega
  | keyword kind count =>
    have hb : (Token.keyword kind count : Token β).partialState = _ := keyword_bits kind count
    have ht : kind.bits % 4 = 0 := by cases kind <;> rfl
    rw [closePartial_error]
    · rfl
    · show (Token.keyword kind count : Token β).partialState ≠ 0
      omega
    · show (Token.keyword kind count : Token β).partialState % 4 ≠ 2
      omega
  | number state literal =>
    unfold Machine.close finish
    dsimp only
    rw [closePartial_number rfl rfl, finishChunkNumber_eq, List.append_nil]
    cases state.value literal with
    | none => rfl
    | some value =>
      unfold Machine.call ChunkedJsonParser.call
      dsimp only [toParser]
      rw [outcome_map, outcome_bind, outcome_map]
      cases outcome (JsonListener.call listener (.handleNumber value)) with
      | error t => rfl
      | ok l => exact finished_eq (p := ⟨e, place.bits, _, _, _, l⟩) rfl

variable [LawfulJsonSource β]

theorem parseChunks_eq (hm : m.Wf) (chunks : List (List ℕ)) :
    (outcome ((m.toParser e m.place.bits).parseChunks chunks)).map (fun p => p.listener) =
      m.run chunks.flatten >>= fun m => m.close := by
  induction chunks generalizing m e with
  | nil => exact close_eq
  | cons chunk chunks ih =>
    unfold parseChunks at ih ⊢
    rw [List.foldlM_cons, outcome_bind, outcome_bind, parse_eq hm, List.flatten_cons, run_append]
    cases hr : m.run chunk with
    | error t => rfl
    | ok _ =>
      refine Eq.trans ?_ (ih (e := some chunk.length) (run_wf hm hr))
      rw [outcome_bind]
      rfl

theorem outcome_parseChunks {γ : Type} (hm : m.Wf) (chunks : List (List ℕ)) (f : L → γ) :
    outcome (do
      let p ← (m.toParser e m.place.bits).parseChunks chunks
      .ok (f p.listener)) = (m.run chunks.flatten >>= fun m => m.close).map f := by
  rw [← parseChunks_eq hm chunks, outcome_bind]
  cases outcome ((m.toParser e m.place.bits).parseChunks chunks) <;> rfl

end Closing

end DartSdk.Convert.Machine

namespace DartSdk.Convert

theorem outcome_jsonEvents (chunks : List (List ℕ)) :
    outcome (jsonEvents chunks) =
      ((Machine.new ⟨[]⟩ : Machine StringBuffer EventLog).run chunks.flatten >>= Machine.close).map
        EventLog.events := by
  have h := Machine.outcome_parseChunks (m := (Machine.new ⟨[]⟩ : Machine StringBuffer EventLog))
    (e := none) (Machine.new_wf _) chunks EventLog.events
  exact h

/-- **The way in which a text is cut into chunks does not matter**: the events are the same, or there
is a `FormatException` in both cases. -/
theorem jsonEvents_chunks (chunks : List (List ℕ)) :
    (∃ events, jsonEvents chunks = .ok events ∧ jsonEvents [chunks.flatten] = .ok events) ∨
      (∃ message offset, jsonEvents chunks = .error (.formatException message offset)) ∧
      ∃ message offset, jsonEvents [chunks.flatten] = .error (.formatException message offset) := by
  have hs : outcome (jsonEvents chunks) = outcome (jsonEvents [chunks.flatten]) := by
    rw [outcome_jsonEvents, outcome_jsonEvents, List.flatten_singleton]
  have hr : Throwing.Returns (outcome (jsonEvents chunks)) (fun _ => True)
      fun t => t = .formatException := by
    rw [outcome_jsonEvents]
    refine Throwing.Returns.map (Throwing.Returns.bind
      (Machine.run_returns Machine.throws_eventLog (Machine.new_wf _) chunks.flatten) fun m hm => ?_)
    exact Machine.close_returns Machine.throws_eventLog hm
  cases hc : outcome (jsonEvents chunks) with
  | ok events =>
    exact .inl ⟨events, outcome_eq_ok.mp hc, outcome_eq_ok.mp (hs ▸ hc)⟩
  | error t =>
    rw [hc] at hr
    have ht : t = .formatException := hr
    subst ht
    exact .inr ⟨outcome_eq_formatException.mp hc,
      outcome_eq_formatException.mp (hs ▸ hc)⟩

abbrev JsonMachine := Machine StringBuffer BuildJsonListener

theorem outcome_parseJson (json : List ℕ) :
    outcome (parseJson json) =
      ((Machine.new .new : JsonMachine).run json >>= Machine.close).map BuildJsonListener.result := by
  have h := Machine.outcome_parseChunks (m := (Machine.new .new : JsonMachine)) (e := none)
    (Machine.new_wf _) [json] BuildJsonListener.result
  rw [List.flatten_singleton] at h
  rw [← h]
  unfold parseJson
  have hn : (ChunkedJsonParser.new .new : ChunkedJsonParser StringBuffer BuildJsonListener) =
    Machine.toParser (Machine.new .new) none (Machine.new .new : JsonMachine).place.bits := rfl
  rw [hn, ChunkedJsonParser.parseChunks, List.foldlM_cons, bind_assoc, bind_assoc]
  rfl

end DartSdk.Convert
