import DartSdk.Convert.JsonParser.Numbers

/-!
# What holds between two characters

Every place inside a container has a saved place below it, and a token that is not complete is one
that the parser can go on with.  So `restoreState` does not fail and the only exceptions are those of
the listener, of the string buffers and `FormatException` (`step_returns`).
-/

namespace DartSdk.Convert

open ChunkedJsonParser Throwing

section Invariant

/-- The place is inside an array or an object. -/
def Place.inside : Place → Bool
  | initial => false
  | finished => false
  | _ => true

theorem Place.inside_after (place : Place) : place.after.inside = place.inside := by
  cases place <;> rfl

/-- The last place is not inside a container. -/
def Nested : Place → List Place → Prop
  | place, [] => place.inside = false
  | _, place :: stack => Nested place stack

theorem Nested.of_inside {place place' : Place} {stack : List Place} (h : Nested place stack)
    (hi : place'.inside = place.inside) : Nested place' stack := by
  cases stack with
  | nil => exact hi.trans h
  | cons _ _ => exact h

/-- What the literal is in the two states that have only one, and that a keyword is not complete. -/
def Token.Wf {β : Type} : Token β → Prop
  | .number .sign literal => literal = [MINUS]
  | .number .zero literal => parseInt literal = 0
  | .keyword kind count => count < kind.chars.length
  | _ => True

structure Machine.Wf {β L : Type} (m : Machine β L) : Prop where
  nested : Nested m.place m.stack
  token : m.token.Wf

end Invariant

namespace Machine

theorem new_wf {β L : Type} (listener : L) : (new listener : Machine β L).Wf := ⟨rfl, trivial⟩

section Steps

variable {β L : Type} [JsonSource β] [JsonListener L] {E : ThrownType → Prop} {m : Machine β L}
  {char : ℕ}

/-- Which exceptions the listener and the string buffers may throw, besides `FormatException`. -/
structure Throws (β L : Type) [JsonSource β] [JsonListener L] (E : ThrownType → Prop) : Prop where
  format : E .formatException
  call : ∀ (l : L) (event : JsonEvent),
    Returns (outcome (JsonListener.call l event)) (fun _ => True) E
  addChar : ∀ (b : β) (char : ℕ),
    Returns (outcome (JsonSource.addCharToString b char)) (fun _ => True) E
  addSlice : ∀ (b : β) (start : ℕ) (slice : List ℕ),
    Returns (outcome (JsonSource.addSliceToString b start slice)) (fun _ => True) E
  endString : ∀ b : β, Returns (outcome (JsonSource.endString b)) (fun _ => True) E

variable (hE : Throws β L E)

include hE

theorem call_returns (event : JsonEvent) : Returns (m.call event)
    (fun m' => m'.token = m.token ∧ m'.place = m.place ∧ m'.stack = m.stack) E :=
  Returns.map ((hE.call m.listener event).mono (fun _ _ => ⟨rfl, rfl, rfl⟩) fun _ h => h)

variable {event : JsonEvent}

theorem call_wf (hm : m.Wf) : Returns (m.call event) Wf E := by
  refine (call_returns hE event).mono ?_ fun _ h => h
  rintro _ ⟨ht, hplace, hstack⟩
  refine ⟨?_, ?_⟩
  · rw [hplace, hstack]
    exact hm.nested
  · rw [ht]
    exact hm.token

section

variable (hm : Nested m.place m.stack)

include hm

theorem addChar_returns {b : β} : Returns (m.addChar b char) Wf E :=
  (hE.addChar b char).bind fun _ _ => ⟨hm, trivial⟩

theorem readPlain_returns {b : β} : Returns (m.readPlain b char) Wf E := by
  unfold readPlain
  split
  · exact hE.format
  split
  · exact (hE.endString b).bind fun _ _ => call_wf hE ⟨hm, trivial⟩
  split
  · exact ⟨hm, trivial⟩
  · exact (hE.addSlice b 0 [char]).bind fun _ _ => ⟨hm, trivial⟩

theorem readEscape_returns {b : β} : Returns (m.readEscape b char) Wf E := by
  unfold readEscape
  split
  · exact addChar_returns hE hm
  split
  · exact ⟨hm, trivial⟩
  · exact hE.format

theorem readUnicode_returns {b : β} {count : Fin 4} {value : ℕ} :
    Returns (m.readUnicode b count value char) Wf E := by
  unfold readUnicode
  split
  · exact hE.format
  split
  · exact ⟨hm, trivial⟩
  · exact addChar_returns hE hm

theorem readKeyword_returns {keyword : Keyword} {count : ℕ}
    (hc : count < keyword.chars.length) : Returns (m.readKeyword keyword count char) Wf E := by
  unfold readKeyword
  rw [List.getElem?_eq_getElem hc]
  dsimp only
  split
  · exact hE.format
  split
  · rename_i hn
    exact ⟨hm, hn⟩
  · exact call_wf hE ⟨hm, trivial⟩

end

omit hE in
theorem parseInt_zero {char : ℕ} (h : char ^^^ CHAR_0 = 0) : parseInt [char] = 0 := by
  have hd : char ^^^ CHAR_0 ≤ 9 := by omega
  have heq := digit_eq hd
  have hr := (isDigit_iff char).mp hd
  have hc : char = 0x30 := by
    unfold CHAR_0 at heq h
    omega
  subst hc
  decide

theorem beginNumber_returns (hm : Nested m.place m.stack) : Returns (m.beginNumber char) Wf E := by
  unfold beginNumber
  split
  · rename_i hmn
    exact ⟨hm, congrArg (fun c => [c]) hmn⟩
  split
  · refine ⟨hm, ?_⟩
    by_cases hzero : char ^^^ CHAR_0 = 0
    · simp only [if_pos hzero]
      exact parseInt_zero hzero
    · simp only [if_neg hzero]
      trivial
  · exact hE.format

theorem beginToken_returns {allowed : Bool} {begin : Machine β L → Except ThrownType (Machine β L)}
    (hm : m.Wf) (hb : ∀ m : Machine β L, m.Wf → Returns (begin m) Wf E) :
    Returns (m.beginToken allowed begin) Wf E := by
  unfold beginToken
  split
  · exact hb _ ⟨hm.nested.of_inside m.place.inside_after, hm.token⟩
  · exact hE.format

theorem openContainer_returns {place : Place} (hm : m.Wf) :
    Returns (m.openContainer event place) Wf E := by
  unfold Machine.openContainer
  split
  · refine (call_returns hE event).bind ?_
    rintro m' ⟨ht, -, -⟩
    refine ⟨hm.nested, ?_⟩
    rw [ht]
    exact hm.token
  · exact hE.format

omit [JsonSource β] [JsonListener L] hE in
theorem restore_returns (hm : m.Wf) (hi : m.place.inside) : Returns m.restore Wf E := by
  unfold restore
  obtain ⟨hn, ht⟩ := hm
  split
  · rename_i hs
    rw [hs, Nested, hi] at hn
    cases hn
  · rename_i place stack hs
    rw [hs] at hn
    exact ⟨Nested.of_inside hn place.inside_after, ht⟩

theorem closeContainer_returns {empty value : Place} {valueEvent endEvent : JsonEvent} (hm : m.Wf)
    (he : empty.inside) (hv : value.inside) :
    Returns (m.closeContainer empty value valueEvent endEvent) Wf E := by
  have hc : ∀ {m : Machine β L} (event : JsonEvent), m.Wf ∧ m.place.inside →
      Returns (m.call event) (fun m => m.Wf ∧ m.place.inside) E := by
    rintro m event ⟨hm, hinside⟩
    refine (call_returns hE event).mono ?_ fun _ h => h
    rintro m' ⟨ht, hp, hstack⟩
    rw [hp]
    refine ⟨⟨?_, ?_⟩, hinside⟩
    · rw [hp, hstack]
      exact hm.nested
    · rw [ht]
      exact hm.token
  refine Returns.bind (P := fun m => m.Wf ∧ m.place.inside) ?_ fun m' hm' =>
    restore_returns hm'.1 hm'.2
  split
  · rename_i hp
    exact hc endEvent ⟨hm, hp ▸ he⟩
  split
  · rename_i hp
    exact (hc valueEvent ⟨hm, hp ▸ hv⟩).bind fun m' hm' => hc endEvent hm'
  · exact hE.format

/-- The listener is called and the place changes, inside the same container. -/
theorem call_place_returns {place : Place} (hm : m.Wf) (hi : place.inside = m.place.inside) :
    Returns (m.call event >>= fun m => .ok { m with place := place }) Wf E := by
  refine (call_returns hE event).bind ?_
  rintro m' ⟨ht, -, hstack⟩
  refine ⟨?_, ?_⟩
  · rw [hstack]
    exact hm.nested.of_inside hi
  · rw [ht]
    exact hm.token

theorem readColon_returns (hm : m.Wf) : Returns m.readColon Wf E := by
  unfold readColon
  split
  · rename_i hp
    exact call_place_returns hE hm (by rw [hp]; rfl)
  · exact hE.format

theorem readComma_returns (hm : m.Wf) : Returns m.readComma Wf E := by
  unfold readComma
  split
  · rename_i hp
    exact call_place_returns hE hm (by rw [hp]; rfl)
  split
  · rename_i hp
    exact call_place_returns hE hm (by rw [hp]; rfl)
  · exact hE.format

theorem start_returns (hm : m.Wf) : Returns (m.start char) Wf E := by
  unfold start
  split
  · exact hm
  split
  · exact beginToken_returns hE hm fun m hm => ⟨hm.nested, trivial⟩
  split
  · exact openContainer_returns hE hm
  split
  · exact openContainer_returns hE hm
  split
  · exact beginToken_returns hE hm fun m hm => ⟨hm.nested, (by decide : 1 < Keyword.null.chars.length)⟩
  split
  · exact beginToken_returns hE hm fun m hm => ⟨hm.nested, (by decide : 1 < Keyword.false.chars.length)⟩
  split
  · exact beginToken_returns hE hm fun m hm => ⟨hm.nested, (by decide : 1 < Keyword.true.chars.length)⟩
  split
  · exact readColon_returns hE hm
  split
  · exact readComma_returns hE hm
  split
  · exact closeContainer_returns hE hm rfl rfl
  split
  · exact closeContainer_returns hE hm rfl rfl
  · exact beginToken_returns hE hm fun m hm => beginNumber_returns hE hm.nested

omit [JsonSource β] [JsonListener L] hE in
theorem number_wf {state state' : NumberState} {literal : List ℕ}
    (hm : (Token.number state literal : Token β).Wf) (h : state.step char = .next state') :
    (Token.number state' (literal ++ [char]) : Token β).Wf := by
  cases state with
  | sign =>
    have hl : literal = [MINUS] := hm
    unfold NumberState.step at h
    dsimp only at h
    split at h
    · rename_i hd
      cases h
      by_cases hzero : char ^^^ CHAR_0 = 0
      · simp only [if_pos hzero, hl]
        show parseInt ([MINUS] ++ [char]) = 0
        rw [parseInt_signed (Or.inr ⟨rfl, rfl⟩) (by simp) (by simpa using hd)]
        show -1 * ((10 * 0 + (char - CHAR_0) : ℕ) : ℤ) = 0
        rw [← digit_eq hd, hzero]
        rfl
      · simp only [if_neg hzero]
        trivial
    · cases h
  | _ =>
    unfold NumberState.step at h
    split_ifs at h <;> cases h <;> trivial

theorem finish_returns (hm : m.Wf) : Returns m.finish Wf E := by
  unfold finish
  split
  · split
    · exact call_wf hE ⟨hm.nested, trivial⟩
    · exact hE.format
  · exact hm

/-- **A step keeps the invariant or throws one of the exceptions.** -/
theorem step_returns (hm : m.Wf) : Returns (m.step char) Wf E := by
  obtain ⟨hn, ht⟩ := hm
  unfold step
  split
  · rename_i hnn
    exact start_returns hE ⟨hn, hnn ▸ trivial⟩
  · exact readPlain_returns hE hn
  · exact readEscape_returns hE hn
  · exact readUnicode_returns hE hn
  · rename_i state literal hnm
    rw [hnm] at ht
    split
    · rename_i state' hnx
      exact ⟨hn, number_wf ht hnx⟩
    · refine (finish_returns hE ⟨hn, ?_⟩).bind fun m' hm' => start_returns hE hm'
      rw [hnm]
      exact ht
    · exact hE.format
  · rename_i keyword count hk
    rw [hk] at ht
    exact readKeyword_returns hE hn ht

theorem run_returns (hm : m.Wf) (text : List ℕ) : Returns (m.run text) Wf E :=
  returns_foldlM (fun _ hm _ _ => step_returns hE hm) hm

end Steps

section Runs

variable {β L : Type} [JsonSource β] [JsonListener L] {m m' : Machine β L} {text : List ℕ}

theorem run_wf (hm : m.Wf) (h : m.run text = .ok m') : m'.Wf := by
  have hE : Throws β L fun _ => True :=
    { format := trivial
      call := fun l event => by cases outcome (JsonListener.call l event) <;> trivial
      addChar := fun b char => by cases outcome (JsonSource.addCharToString b char) <;> trivial
      addSlice := fun b start slice => by
        cases outcome (JsonSource.addSliceToString b start slice) <;> trivial
      endString := fun b => by cases outcome (JsonSource.endString b) <;> trivial }
  have hr := run_returns hE hm text
  rwa [h] at hr

/-- The events of a string parser: there is no exception but `FormatException`. -/
theorem throws_eventLog : Throws StringBuffer EventLog fun t => t = .formatException :=
  { format := rfl
    call := fun _ _ => trivial
    addChar := fun _ _ => trivial
    addSlice := fun _ _ _ => trivial
    endString := fun _ => trivial }

theorem close_returns {E : ThrownType → Prop} (hE : Throws β L E) (hm : m.Wf) :
    Returns m.close (fun _ => True) E := by
  unfold Machine.close
  split
  · split
    · trivial
    · exact hE.format
  · refine (finish_returns hE hm).bind fun m' _ => ?_
    split
    · trivial
    · exact hE.format
  · exact hE.format

end Runs

end Machine

end DartSdk.Convert
