import DartSdk.Io.HttpParser
import DartSdk.Lib.Buffering

/-!
# The HTTP parser and its buffers

A connection delivers the stream in buffers.  The loop of `_doParse` goes on whenever neither the
messages nor the body, if there is one, are paused; those who listen may pause and resume at any time.

* `meaning_round`: a round does what its bytes do one by one;
* `buffering_irrelevant`: **what is reported depends on the stream only**, not on the way in which it
  is cut into buffers and not on the pauses.
-/

namespace DartSdk.Io.HttpParser

open List

variable {Uri : Type} (core : Core Uri)

section Connection

/-- A parser with its buffer, from `_index` on, and the buffers that are still to come. -/
structure Connection (Uri : Type) where
  parser : Parser
  paused : Bool
  bodyPaused : Bool
  buffer : Option (List UInt8)
  pending : List (List UInt8)
  isDone : Bool
  trace : List (Event Uri)

/-- The loop of `_doParse` ends in these states. -/
def Parser.stopped (p : Parser) : Bool := p.state = .failure ∨ p.state = .upgraded

/-- The loop waits: it is the body that counts if there is one. -/
def Connection.waits (c : Connection Uri) : Bool :=
  c.parser.incoming && c.bodyPaused || !c.parser.incoming && c.paused

/-- A new body is paused until someone listens to it. -/
def bodyPausedAfter (p p' : Parser) (bodyPaused : Bool) : Bool :=
  p'.incoming && (!p.incoming || bodyPaused)

/-- A connection is at work, or those who listen pause and resume. -/
inductive Step : Connection Uri → Connection Uri → Prop
  | onData {c : Connection Uri} {b : List UInt8} {bs : List (List UInt8)}
    (hstopped : c.parser.stopped = false) (hbuffer : c.buffer = none) (hpending : c.pending = b :: bs)
    (hdone : c.isDone = false) : Step c { c with buffer := some b, pending := bs }
  | round {c : Connection Uri} {x : UInt8} {b : List UInt8} (hstopped : c.parser.stopped = false)
    (hwaits : c.waits = false) (hbuffer : c.buffer = some (x :: b)) (hdone : c.isDone = false) :
    Step c
      { c with
        parser := (round core c.parser (x :: b)).1
        bodyPaused := bodyPausedAfter c.parser (round core c.parser (x :: b)).1 c.bodyPaused
        buffer := some ((x :: b).drop (round core c.parser (x :: b)).2.1)
        trace := c.trace ++ (round core c.parser (x :: b)).2.2 }
  | releaseBuffer {c : Connection Uri} (hbuffer : c.buffer = some []) (hdone : c.isDone = false) :
    Step c { c with buffer := none }
  | onDone {c : Connection Uri} (hstopped : c.parser.stopped = false) (hbuffer : c.buffer = none)
    (hpending : c.pending = []) (hdone : c.isDone = false) :
    Step c { c with isDone := true, trace := c.trace ++ onDone c.parser }
  | pause {c : Connection Uri} (paused : Bool) : Step c { c with paused := paused }
  | pauseBody {c : Connection Uri} (bodyPaused : Bool) : Step c { c with bodyPaused := bodyPaused }

abbrev Run : Connection Uri → Connection Uri → Prop := Relation.ReflTransGen (Step core)

/-- A parser that someone listens to, on a connection that is going to deliver the buffers. -/
def connect (requestParser isHead : Bool) (buffers : List (List UInt8)) : Connection Uri where
  parser := new requestParser isHead
  paused := false
  bodyPaused := false
  buffer := none
  pending := buffers
  isDone := false
  trace := []

/-- The connection is done, or the parser does not go on because of an error or an upgrade. -/
def Connection.Finished (c : Connection Uri) : Prop := c.isDone = true ∨ c.parser.stopped = true

/-- What a listener can tell: bodies are sequences of bytes. -/
def observe (trace : List (Event Uri)) : List (Event Uri) :=
  trace.flatMap fun
    | .data bytes => bytes.map fun byte => .data [byte]
    | event => [event]

end Connection

section Meaning

/-- What a byte does.  It may be read again once. -/
def feed (p : Parser) (byte : UInt8) : Parser × List (Event Uri) :=
  let first := round core p [byte]
  if first.2.1 = 0 then
    let second := round core first.1 [byte]
    (second.1, first.2.2 ++ second.2.2)
  else (first.1, first.2.2)

/-- What is observed from a parser on, given the rest of the stream. -/
def meaning (p : Parser) : List UInt8 → List (Event Uri)
  | [] => if p.stopped then [] else observe (onDone p)
  | byte :: rest =>
    if p.stopped then []
    else observe (feed core p byte).2 ++ meaning (feed core p byte).1 rest

variable {core} {p p' : Parser} {byte : UInt8} {block rest : List UInt8}
  {events events' : List (Event Uri)}

@[simp] theorem observe_nil : observe ([] : List (Event Uri)) = [] := rfl

theorem observe_append : observe (events ++ events') = observe events ++ observe events' :=
  flatMap_append

theorem meaning_stopped (h : p.stopped) (l : List UInt8) : meaning core p l = [] := by
  cases l with
  | nil | cons _ _ => rw [meaning, if_pos h]

theorem next_ne_again (result : Except ParseError Parser) :
    next result ≠ .ok (p', true, events) := by
  intro h
  cases result with
  | error e | ok p => cases h

theorem expect_eq_ok {α : Type} {x y : UInt8} {result : Except ParseError α} {a : α}
    (h : expect x y result = .ok a) : x = y ∧ result = .ok a := by
  rw [expect] at h
  split_ifs at h with hne
  · cases h
  · exact ⟨not_not.mp hne, h⟩

theorem afterHeader_again (h : (afterHeader p byte).2) :
    (afterHeader p byte).1.state = .headerEnding := by
  rw [afterHeader] at h ⊢
  split_ifs at h ⊢
  · rfl

theorem parseByte_again (h : parseByte core p byte = .ok (p', true, events)) :
    p'.state = .headerEnding := by
  cases hs : p.state <;> simp only [parseByte, hs] at h
  case headerStart =>
    simp only [Except.ok.injEq, Prod.mk.injEq] at h
    obtain ⟨rfl, ha, -⟩ := h
    exact afterHeader_again ha
  case headerValueFoldOrEnd =>
    split_ifs at h
    · cases h
    cases had : addHeader core p with
    | error e =>
      rw [had] at h
      cases h
    | ok _ =>
      rw [had] at h
      simp only [Except.map, Except.ok.injEq, Prod.mk.injEq] at h
      obtain ⟨rfl, ha, -⟩ := h
      exact afterHeader_again ha
  case headerEnding =>
    obtain ⟨-, h⟩ := expect_eq_ok h
    cases he : headersEnd core p with
    | error e | ok _ =>
      rw [he] at h
      cases h
  case chunkedBodyDoneLf =>
    cases (expect_eq_ok h).2
  all_goals first | exact absurd h (next_ne_again _) | cases h

theorem round_byte (h : p.state ≠ .body) (byte : UInt8) (rest : List UInt8) :
    round core p (byte :: rest) = afterByte p (parseByte core p byte) := if_neg h

theorem round_body (h : p.state = .body) (block : List UInt8) :
    round core p block = parseBody p block := if_pos h

theorem dataAvailable_le (p : Parser) (n : ℕ) : dataAvailable p n ≤ n := by
  rw [dataAvailable]
  split_ifs <;> omega

theorem parseBody_eq {n : ℕ} (h : dataAvailable p block.length = n) (hn : n ≤ block.length) :
    (parseBody p block : Parser × ℕ × List (Event Uri)) =
      ((endData (takeData p n) : Parser × List (Event Uri)).1, n,
        .data (block.take n) :: (endData (takeData p n)).2) := by
  rw [parseBody, h, length_take, Nat.min_eq_left hn]

/-- The states in which a byte is not read again. -/
def Parser.takes (p : Parser) : Prop :=
  p.state = .headerEnding ∨ p.state = .start ∨ p.state = .chunkSizeStartingCr

theorem dataAvailable_eq_zero (h : dataAvailable p (byte :: rest).length = 0) :
    p.remainingContent = 0 := by
  rw [dataAvailable, length_cons] at h
  split_ifs at h
  omega

theorem round_zero (h : (round core p (byte :: rest)).2.1 = 0) :
    (round core p (byte :: rest)).1.takes := by
  by_cases hbody : p.state = .body
  · rw [round_body hbody, parseBody_eq rfl (dataAvailable_le _ _)] at h ⊢
    have hz : dataAvailable p (byte :: rest).length = 0 := h
    rw [hz]
    have hr : (takeData p 0).remainingContent = 0 := by
      have := dataAvailable_eq_zero hz
      simp [takeData, this]
    right
    rw [endData, if_pos hr]
    split_ifs
    · exact .inr rfl
    · exact .inl (by simp [endMessage, reset, takeData, hbody])
  · rw [round_byte hbody] at h ⊢
    cases hb : parseByte core p byte with
    | error e =>
      rw [hb] at h
      cases h
    | ok result =>
      obtain ⟨_, again, _⟩ := result
      rw [hb] at h
      cases again with
      | false => cases h
      | true => exact .inl (parseByte_again hb)

theorem Parser.takes.stopped (h : p.takes) : p.stopped = false := by
  rcases h with h | h | h <;> simp [Parser.stopped, h]

theorem Parser.takes.state_ne_body (h : p.takes) : p.state ≠ .body := by
  rcases h with h | h | h <;> simp [h]

theorem Parser.takes.round (h : p.takes) (byte : UInt8) (rest : List UInt8) :
    (HttpParser.round core p (byte :: rest)).2.1 = 1 := by
  rw [round_byte h.state_ne_body]
  cases hb : parseByte core p byte with
  | error e => rfl
  | ok result =>
    obtain ⟨_, again, _⟩ := result
    cases again with
    | false => rfl
    | true =>
      rcases h with h | h | h <;> simp only [parseByte, h] at hb
      · obtain ⟨-, hb⟩ := expect_eq_ok hb
        cases he : headersEnd core p with
        | error e | ok result =>
          rw [he] at hb
          cases hb
      · exact absurd hb (next_ne_again _)
      · exact absurd hb (next_ne_again _)

theorem feed_of_round {p' : Parser} {n : ℕ} (h : round core p [byte] = (p', n, events)) (hn : n ≠ 0) :
    feed core p byte = (p', events) := by
  rw [feed, h]
  exact if_neg hn

/-- A byte that a round does not take does to the parser after it what it does before. -/
theorem meaning_round_zero {events : List (Event Uri)} (h : round core p [byte] = (p', 0, events))
    (hp : p.stopped = false) (l : List UInt8) :
    meaning core p (byte :: l) = observe events ++ meaning core p' (byte :: l) := by
  have ht : p'.takes := by
    have hz : (round core p [byte]).2.1 = 0 → (round core p [byte]).1.takes := round_zero
    rw [h] at hz
    exact hz rfl
  have ho : (round core p' [byte]).2.1 = 1 := ht.round byte []
  have hf : feed core p' byte = ((round core p' [byte]).1, (round core p' [byte]).2.2) :=
    feed_of_round rfl (fun h => absurd (ho.symm.trans h) Nat.one_ne_zero)
  have hf' : feed core p byte =
      ((round core p' [byte]).1, events ++ (round core p' [byte]).2.2) := by
    rw [feed, h]
    rfl
  rw [meaning, meaning, if_neg (by simp [hp]), if_neg (by simp [ht.stopped]), hf, hf',
    observe_append, append_assoc]

theorem takeData_takeData (h : p.remainingContent < 0 ∨ 1 < p.remainingContent) (n : ℕ) :
    takeData (takeData p 1) n = takeData p (n + 1) := by
  simp only [takeData]
  congr 1
  split_ifs <;> omega

theorem observe_data (bytes : List UInt8) (events : List (Event Uri)) :
    observe (.data bytes :: events) =
      (bytes.map fun byte => (.data [byte] : Event Uri)) ++ observe events :=
  flatMap_cons

theorem meaning_data (hs : p.state = .body) (data : List UInt8) (hne : data ≠ [])
    (hl : p.remainingContent < 0 ∨ data.length ≤ p.remainingContent) (l : List UInt8) :
    meaning core p (data ++ l) =
      observe (.data data :: (endData (takeData p data.length)).2) ++
        meaning core (endData (takeData p data.length) : Parser × List (Event Uri)).1 l := by
  have hf (p : Parser) (byte : UInt8) (hs : p.state = .body)
      (hl : p.remainingContent < 0 ∨ 1 ≤ p.remainingContent) :
      feed core p byte = ((endData (takeData p 1) : Parser × List (Event Uri)).1,
        .data [byte] :: (endData (takeData p 1)).2) := by
    have ha : dataAvailable p [byte].length = 1 := if_neg (by simp; omega)
    refine feed_of_round ?_ Nat.one_ne_zero
    rw [round_body hs, parseBody_eq ha (Nat.le_refl 1)]
    rfl
  induction data generalizing p with
  | nil => exact absurd rfl hne
  | cons byte data ih =>
    rw [length_cons] at hl
    have hp : p.stopped = false := by simp [Parser.stopped, hs]
    rw [cons_append, meaning, if_neg (by simp [hp]), hf p byte hs (by omega)]
    cases data with
    | nil => rfl
    | cons byte' data =>
      -- the body goes on after the first byte
      rw [length_cons] at hl
      have hr : (takeData p 1).remainingContent =
          if p.remainingContent ≠ -1 then p.remainingContent - (1 : ℕ) else p.remainingContent := rfl
      have hm : (endData (takeData p 1) : Parser × List (Event Uri)) = (takeData p 1, []) := by
        refine if_neg ?_
        rw [hr]
        split_ifs <;> omega
      have hl₁ : (takeData p 1).remainingContent < 0 ∨
          (byte' :: data).length ≤ (takeData p 1).remainingContent := by
        rw [hr, length_cons]
        split_ifs <;> omega
      have hs₁ : (takeData p 1).state = .body := hs
      rw [hm, ih hs₁ (cons_ne_nil _ _) hl₁, takeData_takeData (by omega),
        observe_data, observe_data, observe_data]
      simp

theorem afterByte_le (p : Parser) (result : Except ParseError (Parser × Bool × List (Event Uri))) :
    (afterByte p result).2.1 ≤ 1 := by
  cases result with
  | error e => exact Nat.le_refl 1
  | ok result =>
    obtain ⟨_, again, _⟩ := result
    cases again with
    | false => exact Nat.le_refl 1
    | true => exact Nat.zero_le 1

theorem meaning_round (hp : p.stopped = false) (byte : UInt8) (block l : List UInt8) :
    meaning core p (byte :: block ++ l) = observe (round core p (byte :: block)).2.2 ++
      meaning core (round core p (byte :: block)).1
        ((byte :: block).drop (round core p (byte :: block)).2.1 ++ l) := by
  by_cases hbody : p.state = .body
  · have hle := dataAvailable_le p (byte :: block).length
    rw [round_body hbody, parseBody_eq rfl hle]
    by_cases hzero : dataAvailable p (byte :: block).length = 0
    · have hr := dataAvailable_eq_zero hzero
      have ho : dataAvailable p [byte].length = 0 := by
        rw [dataAvailable, hr]
        rfl
      rw [hzero]
      refine meaning_round_zero ?_ hp (block ++ l)
      rw [round_body hbody, parseBody_eq ho (Nat.zero_le _)]
      rfl
    · have hl : ((byte :: block).take (dataAvailable p (byte :: block).length)).length =
          dataAvailable p (byte :: block).length := length_take_of_le hle
      have hr : p.remainingContent < 0 ∨
          dataAvailable p (byte :: block).length ≤ p.remainingContent := by
        rw [dataAvailable]
        split_ifs <;> omega
      rw [← hl] at hr
      have hd : meaning core p _ = _ := meaning_data hbody
        ((byte :: block).take (dataAvailable p (byte :: block).length)) (by simpa using hzero)
        hr ((byte :: block).drop (dataAvailable p (byte :: block).length) ++ l)
      rwa [← append_assoc, take_append_drop, hl] at hd
  · have ho : round core p [byte] = round core p (byte :: block) := by
      rw [round_byte hbody, round_byte hbody]
    have hle := afterByte_le p (parseByte core p byte)
    rw [← round_byte hbody byte block] at hle
    rcases hrn : round core p (byte :: block) with ⟨_, n, _⟩
    rw [hrn] at ho hle
    by_cases hzero : n = 0
    · subst hzero
      exact meaning_round_zero ho hp (block ++ l)
    obtain rfl : n = 1 := by
      have : n ≤ 1 := hle
      omega
    rw [cons_append, meaning, if_neg (by simp [hp]), feed_of_round ho Nat.one_ne_zero]
    rfl

end Meaning

section Runs

/-- The parser as a machine that takes blocks. -/
def machine : Buffering.Machine Parser UInt8 (Event Uri) where
  round := round core
  stopped := Parser.stopped
  finish := onDone

theorem conserves : Buffering.Conserves (machine core) observe (meaning core) where
  nil := rfl
  append _ _ := observe_append
  stopped _ l h := meaning_stopped h l
  finish p h := by
    have hp : p.stopped = false := h
    rw [meaning, if_neg (by simp [hp])]
    rfl
  round _ byte block l h := meaning_round h byte block l

def Connection.forget (c : Connection Uri) : Buffering.Config Parser UInt8 (Event Uri) :=
  ⟨c.parser, c.buffer, c.pending, c.isDone, c.trace⟩

variable {core} {c c' : Connection Uri} {d : Buffering.Config Parser UInt8 (Event Uri)}

theorem Step.forget (h : Step core c c') : Buffering.Run (machine core) c.forget c'.forget := by
  obtain ⟨p, paused, bodyPaused, _, _, _, _⟩ := c
  cases h with
  | onData hs hb hp hd =>
    cases hb
    cases hp
    cases hd
    exact .single (.take hs)
  | round hs _ hb hd =>
    cases hb
    cases hd
    exact .single (.round hs)
  | releaseBuffer hb hd =>
    cases hb
    cases hd
    exact .single .release
  | onDone hs hb hp hd =>
    cases hb
    cases hp
    cases hd
    exact .single (.finish hs)
  | pause paused | pauseBody bodyPaused => exact .refl

theorem Run.forget (h : Run core c c') : Buffering.Run (machine core) c.forget c'.forget := by
  induction h with
  | refl => exact .refl
  | tail _ hs ih => exact ih.trans hs.forget

theorem exists_step (h : Buffering.Step (machine core) c.forget d) :
    ∃ c', Run core c c' ∧ c'.forget = d := by
  obtain ⟨p, _, _, _, _, _, _⟩ := c
  cases h with
  | take hs => exact ⟨_, .single (.onData hs rfl rfl rfl), rfl⟩
  | round hs =>
    refine ⟨_, .head (.pause false) (.head (.pauseBody false) (.single
      (.round hs ?_ rfl rfl))), rfl⟩
    simp [Connection.waits]
  | release => exact ⟨_, .single (.releaseBuffer rfl rfl), rfl⟩
  | finish hs => exact ⟨_, .single (.onDone hs rfl rfl rfl), rfl⟩

theorem exists_run (h : Buffering.Run (machine core) c.forget d) :
    ∃ c', Run core c c' ∧ c'.forget = d := by
  induction h with
  | refl => exact ⟨c, .refl, rfl⟩
  | tail _ hs ih =>
    obtain ⟨_, hr, rfl⟩ := ih
    obtain ⟨c₂, hr', heq⟩ := exists_step hs
    exact ⟨c₂, hr.trans hr', heq⟩

/-- A byte is read again at most once. -/
def rank (p : Parser) : ℕ :=
  if p.state = .headerEnding ∨ p.state = .start ∨ p.state = .chunkSizeStartingCr then 0 else 1

theorem exists_finished (c : Connection Uri) : ∃ d, Run core c d ∧ d.Finished := by
  have hrn (p : Parser) (byte : UInt8) (block : List UInt8) (_ : p.stopped = false)
      (hz : (round core p (byte :: block)).2.1 = 0) :
      rank (round core p (byte :: block)).1 < rank p := by
    have ht : ¬p.takes := fun h => by
      rw [h.round] at hz
      cases hz
    have hp : rank p = 1 := if_neg ht
    have hn : rank (round core p (byte :: block)).1 = 0 := if_pos (round_zero hz)
    rw [hp, hn]
    exact Nat.one_pos
  obtain ⟨d, hr, hd⟩ := Buffering.exists_finished (m := machine core) rank hrn c.forget
  obtain ⟨c', hr', rfl⟩ := exists_run hr
  exact ⟨c', hr', hd⟩

/-- **What is reported depends on the stream only.**  Every run can be finished, and runs on
connections that deliver the same bytes report the same, in whatever buffers the bytes come and
whenever those who listen pause. -/
theorem buffering_irrelevant (core : Core Uri) (requestParser isHead : Bool)
    (buffers buffers' : List (List UInt8)) (hstream : buffers.flatten = buffers'.flatten) :
    (∀ c, Run core (connect requestParser isHead buffers) c → ∃ d, Run core c d ∧ d.Finished) ∧
      ∀ c c' : Connection Uri, Run core (connect requestParser isHead buffers) c → c.Finished →
        Run core (connect requestParser isHead buffers') c' → c'.Finished →
          observe c.trace = observe c'.trace := by
  refine ⟨fun c _ => exists_finished c, fun c c' hr hc hr' hc' => ?_⟩
  have h : observe c.trace = meaning core (new requestParser isHead) buffers.flatten :=
    (conserves core).observe_of_finished hr.forget hc
  have h' : observe c'.trace = meaning core (new requestParser isHead) buffers'.flatten :=
    (conserves core).observe_of_finished hr'.forget hc'
  rw [h, h', hstream]

theorem buffering_irrelevant_get :
    [text "GET / HTTP/1.1\r\n", text "\r\n"].flatten =
        [text "GET / HTT", text "P/1.1\r\n\r\n"].flatten ∧
      (∃ d, Run ⟨fun _ => none, some⟩
          (connect true false [text "GET / HTTP/1.1\r\n", text "\r\n"]) d ∧ d.Finished) ∧
      ∀ c c' : Connection Text,
        Run ⟨fun _ => none, some⟩ (connect true false [text "GET / HTTP/1.1\r\n", text "\r\n"]) c →
          c.Finished →
        Run ⟨fun _ => none, some⟩ (connect true false [text "GET / HTT", text "P/1.1\r\n\r\n"]) c' →
          c'.Finished → observe c.trace = observe c'.trace := by
  have hs : [text "GET / HTTP/1.1\r\n", text "\r\n"].flatten =
      [text "GET / HTT", text "P/1.1\r\n\r\n"].flatten := by decide
  obtain ⟨hf, hsm⟩ := buffering_irrelevant ⟨fun _ => none, some⟩ true false _ _ hs
  exact ⟨hs, hf _ .refl, hsm⟩

end Runs

end DartSdk.Io.HttpParser
