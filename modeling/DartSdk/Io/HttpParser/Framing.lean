import DartSdk.Io.HttpParser.Fields
import Mathlib.Data.Fintype.Card
import Mathlib.Tactic.FinCases

/-!
# Where an HTTP message ends

RFC 2616, section 4.4, says from the head of a message where its body ends.  What the parser does is
compared with it: on every stream, for every head that is accepted.

* `meaning_chunkedBody`: a chunked body is read as its data, and it is not complete before its last byte;
* `framed_none_iff`, `framed_chunked_iff`, `framed_length_iff`, `framed_close_iff`: when the parser ends
  a message in this way;
* `framed_iff`: **when the end of a message is the one of section 4.4**.  It fails when a response to a
  `HEAD` request comes after an interim one, when the answer starts with a request line, when `chunked`
  is one transfer coding of several or is put together from the lines of a folded value, and for
  upgrades.
-/

namespace DartSdk.Io.HttpParser

open List Option

variable {Uri : Type} (core : Core Uri)

section Specification

/-- The ways in which a message ends. -/
inductive Framing
  | none
  | chunked
  | length (n : ℕ)
  | close
  deriving DecidableEq

/-- The transfer codings that a value lists. -/
def codings (value : Text) : List Text := (value.splitOn COMMA).map trim

/-- The field names the transfer coding `chunked`. -/
def namesChunked (field : Text × Text) : Bool :=
  field.1 = text "transfer-encoding" &&
    (codings field.2).any (caseInsensitiveCompare (text "chunked"))

def isNumber (value : Text) : Bool := value ≠ [] && value.all isDigit

/-- The content length that the fields declare; the last one counts. -/
def declaredLength (fields : List (Text × Text)) : Option ℤ :=
  fields.reverse.findSome? fun field =>
    if field.1 = text "content-length" then some (number field.2) else none

/-- The status line says that there is no body. -/
def saysNoBody (head : List UInt8) : Prop := isStatusLine head ∧ ∃ status ∈ statusCode head, noBody status

instance (head : List UInt8) : Decidable (saysNoBody head) :=
  inferInstanceAs (Decidable (text "HTTP/" <+: head ∧ ∃ status ∈ statusCode head, noBody status))

/-- Section 4.4.  Nothing is said about a head without a start line, and about a content length that is
not a number. -/
def framing (requestParser toHead : Bool) (head : List UInt8) : Option Framing :=
  if ¬HasStartLine head then none
  else if requestParser = false ∧ (toHead = true ∨ saysNoBody head) then some .none
  else if (fieldsOf head).any namesChunked then some .chunked
  else if ∃ field ∈ fieldsOf head, field.1 = text "content-length" ∧ isNumber field.2 = false then none
  else
    match declaredLength (fieldsOf head) with
    | none => some (if requestParser then .none else .close)
    | some n => some (if n = 0 then .none else .length n.toNat)

/-- `int.parse` reads decimal numbers, with blanks around them. -/
def Core.ReadsNumbers (core : Core Uri) : Prop :=
  ∀ before digits after : Text, before.all isBlank → after.all isBlank → isNumber digits →
    core.parseInt (before ++ digits ++ after) = some (number digits)

def hexByte : Fin 16 × Bool → UInt8
  | (digit, upperCase) =>
    if digit < 10 then .ofNat (0x30 + digit) else
      if upperCase then .ofNat (0x41 + digit - 10) else .ofNat (0x61 + digit - 10)

/-- The lowest digits of a number, the highest of them first. -/
def nibbles : ℕ → ℕ → List (Fin 16 × Bool)
  | 0, _ => []
  | count + 1, n => nibbles count (n / 16) ++ [(Fin.ofNat 16 n, true)]

/-- The line before a chunk: the digits of its size, in any case, and an extension. -/
structure ChunkLine where
  digits : List (Fin 16 × Bool)
  extension : Text
  digits_ne : digits ≠ []
  extension_ok : extension = [] ∨ ∃ more, extension = SEMI_COLON :: more ∧ CR ∉ more

namespace ChunkLine

def size (line : ChunkLine) : ℕ := line.digits.foldl (fun size digit => size * 16 + digit.1) 0

def bytes (line : ChunkLine) : List UInt8 :=
  line.digits.map hexByte ++ line.extension ++ [CR, LF]

end ChunkLine

structure Chunk where
  line : ChunkLine
  data : List UInt8
  data_ne : data ≠ []
  size_eq : line.size = data.length

def Chunk.bytes (chunk : Chunk) : List UInt8 := chunk.line.bytes ++ chunk.data ++ [CR, LF]

/-- A chunked body ends with a chunk of size zero. -/
structure ChunkedBody where
  chunks : List Chunk
  last : ChunkLine
  last_zero : last.size = 0

namespace ChunkedBody

def bytes (body : ChunkedBody) : List UInt8 :=
  body.chunks.flatMap Chunk.bytes ++ body.last.bytes ++ [CR, LF]

def data (body : ChunkedBody) : List UInt8 := body.chunks.flatMap Chunk.data

end ChunkedBody

/-- The next message starts here. -/
def Fresh (requestParser : Bool) (p : Parser) : Prop :=
  p = { new requestParser false with httpVersionIndex := p.httpVersionIndex }

def dataEvents (bytes : List UInt8) : List (Event Uri) := bytes.map fun byte => .data [byte]

/-- What is reported about the rest of the stream when the message ends in this way.  A message
without a body is reported when its body is done. -/
def Framed (requestParser : Bool) (report : List UInt8 → List (Event Uri)) (message : Incoming Uri) :
    Framing → Prop
  | .none => ∀ rest, ∃ p, Fresh requestParser p ∧
      report rest = .bodyDone :: .incoming message :: meaning core p rest
  | .chunked => ∀ (body : ChunkedBody) (rest : List UInt8), ∃ p, Fresh requestParser p ∧
      report (body.bytes ++ rest) =
        .incoming message :: dataEvents body.data ++ .bodyDone :: meaning core p rest
  | .length n => ∀ body rest : List UInt8, body.length = n → ∃ p, Fresh requestParser p ∧
      report (body ++ rest) =
        .incoming message :: dataEvents body ++ .bodyDone :: meaning core p rest
  | .close => ∀ rest, report rest = .incoming message :: dataEvents rest ++ [.bodyDone, .done]

end Specification

variable {p : Parser}

section Chunks

variable {core} {p' q : Parser} {byte : UInt8} {events : List (Event Uri)} {a b da db : List UInt8}

def closedInBody : List (Event Uri) :=
  [.bodyError (.httpException "Connection closed while receiving data"), .bodyDone, .done]

structure Inside (p : Parser) : Prop where
  incoming : p.incoming = true
  chunked : p.chunked = true
  state : p.state = .body ∨ p.state = .chunkSizeStartingCr ∨ p.state = .chunkSizeStartingLf ∨
    p.state = .chunkSize ∨ p.state = .chunkSizeExtension ∨ p.state = .chunkSizeEnding ∨
    p.state = .chunkedBodyDoneCr ∨ p.state = .chunkedBodyDoneLf

def Reads (core : Core Uri) (p : Parser) (bytes data : List UInt8) (q : Parser) : Prop :=
  ∀ rest, meaning core p (bytes ++ rest) = dataEvents data ++ meaning core q rest

/-- Wherever the bytes are cut, the body is not complete. -/
def Cut (core : Core Uri) (p : Parser) (bytes data : List UInt8) : Prop :=
  ∀ part, part <+: bytes → part ≠ bytes →
    ∃ d, d <+: data ∧ meaning core p part = dataEvents d ++ closedInBody

/-- The bytes are a part of a body. -/
structure Passes (core : Core Uri) (p : Parser) (bytes data : List UInt8) (q : Parser) : Prop where
  reads : Reads core p bytes data q
  cut : Cut core p bytes data

theorem Inside.stopped (h : Inside p) : p.stopped = false := by
  rcases h.state with h | h | h | h | h | h | h | h <;> simp [Parser.stopped, h]

theorem Inside.meaning_nil (h : Inside p) : meaning core p [] = closedInBody := by
  have hd : (onDone p : List (Event Uri)) = closedInBody := by
    rcases h.state with hs | hs | hs | hs | hs | hs | hs | hs <;>
      simp [onDone, hs, h.incoming, h.chunked, closedInBody]
  rw [meaning, if_neg (by simp [h.stopped]), hd]
  rfl

theorem Inside.cut_byte (h : Inside p) (byte : UInt8) : Cut core p [byte] [] := by
  intro part hp hne
  rcases prefix_cons_iff.mp hp with rfl | ⟨_, rfl, hrest⟩
  · exact ⟨[], nil_prefix, h.meaning_nil⟩
  · rw [prefix_nil.mp hrest] at hne
    exact absurd rfl hne

theorem dataEvents_append (a b : List UInt8) :
    (dataEvents (a ++ b) : List (Event Uri)) = dataEvents a ++ dataEvents b := map_append

theorem Passes.cut_append (h : Passes core p a da q) (hb : Cut core q b db) :
    Cut core p (a ++ b) (da ++ db) := by
  intro part hp hne
  rcases prefix_or_prefix_of_prefix hp (prefix_append a b) with hs | ⟨c, rfl⟩
  · by_cases hwhole : part = a
    · subst hwhole
      have hb' : b ≠ [] := by
        rintro rfl
        exact hne (append_nil part).symm
      obtain ⟨d, hd, hm⟩ := hb [] nil_prefix hb'.symm
      refine ⟨da ++ d, (prefix_append_right_inj da).mpr hd, ?_⟩
      have hr := h.reads []
      rw [append_nil] at hr
      rw [hr, hm, dataEvents_append, append_assoc]
    · obtain ⟨d, hd, hm⟩ := h.cut part hs hwhole
      exact ⟨d, hd.trans (prefix_append da db), hm⟩
  · have hc : c <+: b := (prefix_append_right_inj a).mp hp
    obtain ⟨d, hd, hm⟩ := hb c hc fun heq => hne (heq ▸ rfl)
    refine ⟨da ++ d, (prefix_append_right_inj da).mpr hd, ?_⟩
    rw [h.reads, hm, dataEvents_append, append_assoc]

theorem Passes.trans (ha : Passes core p a da q) (hb : Passes core q b db p') :
    Passes core p (a ++ b) (da ++ db) p' := by
  refine ⟨fun rest => ?_, ha.cut_append hb.cut⟩
  rw [append_assoc, ha.reads, hb.reads, dataEvents_append, append_assoc]

theorem passes_nil : Passes core p [] [] p :=
  ⟨fun _ => rfl, fun _ hp hne => absurd (prefix_nil.mp hp) hne⟩

theorem passes_byte (h : Inside p) (hbd : p.state ≠ .body)
    (hp : parseByte core p byte = .ok (q, false, [])) : Passes core p [byte] [] q := by
  refine ⟨fun rest => ?_, h.cut_byte byte⟩
  rw [singleton_append, meaning, if_neg (by simp [h.stopped]), feed_of_taken hbd hp]
  rfl

theorem expectHexDigit_hexByte (digit : Fin 16 × Bool) :
    expectHexDigit (hexByte digit) = .ok digit.1.val := by
  obtain ⟨digit, upperCase⟩ := digit
  fin_cases digit <;> cases upperCase <;> rfl

theorem hexByte_ne (digit : Fin 16 × Bool) : hexByte digit ≠ CR ∧ hexByte digit ≠ SEMI_COLON := by
  obtain ⟨digit, upperCase⟩ := digit
  fin_cases digit <;> cases upperCase <;> decide

theorem takeData_all {n : ℕ} (h : p.remainingContent = n) :
    takeData p n = { p with remainingContent := 0 } := by
  rw [takeData, h, if_pos (by omega), Int.sub_self]

section

variable (hi : Inside p)

include hi

theorem passes_digits (hst : p.state = .chunkSize) {n : ℕ} (hn : p.remainingContent = n)
    (digits : List (Fin 16 × Bool)) :
    Passes core p (digits.map hexByte) []
      { p with
        remainingContent := ((digits.foldl (fun size digit => size * 16 + digit.1) n : ℕ) : ℤ) } := by
  induction digits generalizing p n with
  | nil =>
    rw [foldl_nil, ← hn]
    exact passes_nil
  | cons digit digits ih =>
    have hp : parseByte core p (hexByte digit) =
        .ok ({ p with remainingContent := p.remainingContent * 16 + digit.1.val }, false, []) := by
      have hp : parseByte core p (hexByte digit) = next (parseChunkSize p (hexByte digit)) := by
        simp only [parseByte, hst]
      rw [hp, parseChunkSize, if_neg (hexByte_ne digit).1, if_neg (hexByte_ne digit).2,
        expectHexDigit_hexByte]
      rfl
    have hnx : (p.remainingContent * 16 + digit.1.val : ℤ) = ((n * 16 + digit.1.val : ℕ) : ℤ) := by
      rw [hn]
      simp
    exact (passes_byte hi (by simp [hst]) hp).trans
      (ih (p := { p with remainingContent := p.remainingContent * 16 + digit.1.val })
        { hi with } hst hnx)

theorem passes_extension (hst : p.state = .chunkSizeExtension) {more : List UInt8}
    (hm : CR ∉ more) : Passes core p more [] p := by
  induction more with
  | nil => exact passes_nil
  | cons byte more ih =>
    obtain ⟨hb, hm⟩ := not_or.mp (mt mem_cons.mpr hm)
    have hp : parseByte core p byte = .ok (p, false, []) := by
      simp only [parseByte, hst, if_neg (Ne.symm hb)]
    exact (passes_byte hi (by simp [hst]) hp).trans (ih hm)

theorem passes_lineEnd (hst : p.state = .chunkSize) (line : ChunkLine) :
    Passes core p (line.extension ++ [CR]) [] { p with state := .chunkSizeEnding } := by
  have hbd : p.state ≠ .body := by simp [hst]
  have hp (byte : UInt8) : parseByte core p byte = next (parseChunkSize p byte) := by
    simp only [parseByte, hst]
  rcases line.extension_ok with he | ⟨more, he, hmore⟩
  · rw [he]
    exact passes_byte hi hbd (hp CR)
  have hin' : Inside { p with state := .chunkSizeExtension } := { hi with state := by simp }
  rw [he]
  exact (passes_byte hi hbd (hp SEMI_COLON)).trans
    ((passes_extension hin' rfl hmore).trans (passes_byte hin' (by simp) rfl))

theorem passes_data (hst : p.state = .body) {data : List UInt8} (hne : data ≠ [])
    (hl : p.remainingContent = data.length) :
    Passes core p data data { p with state := .chunkSizeStartingCr, remainingContent := 0 } := by
  constructor
  · intro rest
    have he : (endData (takeData p data.length) : Parser × List (Event Uri)) =
        ({ p with state := .chunkSizeStartingCr, remainingContent := 0 }, []) := by
      rw [takeData_all hl, endData, if_pos rfl, if_pos hi.chunked]
    rw [meaning_data hst data hne (by omega), he, observe_data, observe_nil, append_nil]
    rfl
  · intro part hp hs
    refine ⟨part, hp, ?_⟩
    by_cases hnil : part = []
    · subst hnil
      exact hi.meaning_nil
    have hlt : part.length < data.length :=
      lt_of_le_of_ne hp.length_le fun heq => hs (hp.eq_of_length heq)
    have hm : (endData (takeData p part.length) : Parser × List (Event Uri)) =
        (takeData p part.length, []) := by
      rw [endData, if_neg]
      simp only [takeData, hl]
      split_ifs <;> omega
    have hr : meaning core p (part ++ []) = _ := meaning_data hst part hnil (by omega) []
    rw [append_nil, hm, observe_data, observe_nil, append_nil] at hr
    rw [hr, Inside.meaning_nil (p := takeData p part.length)
      { hi with }]
    rfl

section

variable (hst : p.state = .chunkSize) (hz : p.remainingContent = 0)

include hst hz

theorem passes_chunkLine (line : ChunkLine) :
    Passes core p line.bytes []
      { p with
        state := if 0 < line.size then .body else .chunkedBodyDoneCr
        remainingContent := line.size } := by
  let sized : Parser := { p with remainingContent := line.size }
  have hs : Inside sized := { hi with }
  have he : Inside { sized with state := .chunkSizeEnding } :=
    { hi with state := by simp }
  have hd : Passes core p (line.digits.map hexByte) [] sized :=
    passes_digits hi hst hz line.digits
  have hlf : Passes core { sized with state := .chunkSizeEnding } [LF] [] _ :=
    passes_byte he (by simp) rfl
  have hsp : line.bytes = line.digits.map hexByte ++ ((line.extension ++ [CR]) ++ [LF]) := by
    simp [ChunkLine.bytes]
  rw [hsp]
  simpa [sized] using hd.trans ((passes_lineEnd hs hst line).trans hlf)

/-- **A chunk is data**; then the size of the next one follows. -/
theorem passes_chunk (chunk : Chunk) : Passes core p chunk.bytes chunk.data p := by
  have hp : 0 < chunk.line.size := by
    rw [chunk.size_eq]
    exact length_pos_iff.mpr chunk.data_ne
  let body : Parser := { p with state := .body, remainingContent := chunk.line.size }
  let ending : Parser := { p with state := .chunkSizeStartingCr, remainingContent := 0 }
  have hbd : Inside body := { hi with state := .inl rfl }
  have he : Inside ending := { hi with state := by simp [ending] }
  have he' : Inside { ending with state := .chunkSizeStartingLf } :=
    { hi with state := by simp }
  have hln : Passes core p chunk.line.bytes [] body := by
    have hln : Passes core p chunk.line.bytes [] _ :=
      passes_chunkLine hi hst hz chunk.line
    rwa [if_pos hp] at hln
  have ha : ({ p with state := .chunkSize, remainingContent := 0 } : Parser) = p := by
    rw [← hst, ← hz]
  have hcr : Passes core ending [CR] [] { ending with state := .chunkSizeStartingLf } :=
    passes_byte he (by simp [ending]) rfl
  have hlf : Passes core { ending with state := .chunkSizeStartingLf } [LF] [] p :=
    passes_byte he' (by simp) (congrArg (fun p => Except.ok (p, false, [])) ha)
  have hs : chunk.bytes = chunk.line.bytes ++ (chunk.data ++ ([CR] ++ [LF])) := by
    simp [Chunk.bytes]
  rw [hs]
  simpa using hln.trans ((passes_data hbd rfl chunk.data_ne
    (by simp [body, chunk.size_eq])).trans (hcr.trans hlf))

theorem passes_chunks (chunks : List Chunk) :
    Passes core p (chunks.flatMap Chunk.bytes) (chunks.flatMap Chunk.data) p := by
  induction chunks with
  | nil => exact passes_nil
  | cons chunk chunks ih => exact (passes_chunk hi hst hz chunk).trans ih

/-- **A chunked body ends with its last byte**, and it is not complete before. -/
theorem meaning_chunkedBody (body : ChunkedBody) :
    (∀ rest, ∃ p', Fresh p.requestParser p' ∧ meaning core p (body.bytes ++ rest) =
      dataEvents body.data ++ .bodyDone :: meaning core p' rest) ∧
    Cut core p body.bytes body.data := by
  let last : Parser := { p with state := .chunkedBodyDoneCr, remainingContent := 0 }
  let done : Parser := { last with state := .chunkedBodyDoneLf }
  have hl : Inside last := { hi with state := by simp [last] }
  have hd : Inside done := { hi with state := by simp [done] }
  have hln : Passes core p body.last.bytes [] last := by
    have hln : Passes core p body.last.bytes [] _ :=
      passes_chunkLine hi hst hz body.last
    rwa [body.last_zero, if_neg (Nat.lt_irrefl 0)] at hln
  have hcr : Passes core last [CR] [] done := passes_byte hl (by simp [last]) rfl
  have hbd : Passes core p (body.chunks.flatMap Chunk.bytes ++ (body.last.bytes ++ [CR]))
      (body.data ++ ([] ++ [])) done :=
    (passes_chunks hi hst hz body.chunks).trans (hln.trans hcr)
  have hb : body.bytes =
      body.chunks.flatMap Chunk.bytes ++ (body.last.bytes ++ [CR]) ++ [LF] := by
    simp [ChunkedBody.bytes]
  have hlf : parseByte core done LF = .ok (endMessage done, false, [.bodyDone]) := rfl
  rw [nil_append, append_nil] at hbd
  rw [hb]
  constructor
  · intro rest
    refine ⟨endMessage done, rfl, ?_⟩
    rw [append_assoc, hbd.reads, singleton_append, meaning, if_neg (by simp [hd.stopped]),
      feed_of_taken (by simp [done]) hlf]
    rfl
  · simpa using hbd.cut_append (hd.cut_byte LF)

end

end

end Chunks

variable {message : Incoming Uri}

section Bodies

def Parser.endsHere (p : Parser) : Prop :=
  transferLengthOf p = 0 ∨ p.messageType = .response ∧ p.noMessageBody = true

/-- What is reported from the end of the headers on. -/
def bodyReport (p : Parser) (message : Incoming Uri) (rest : List UInt8) : List (Event Uri) :=
  observe (startBody p message).2 ++ meaning core (startBody p message).1 rest

def opened (p : Parser) (state : State) (remainingContent : ℤ) : Parser :=
  { p with
    transferLength := transferLengthOf p
    method := []
    uriOrReasonPhrase := []
    state := state
    remainingContent := remainingContent
    incoming := true }

/-- The parser in the body that follows the headers. -/
def bodyParser (p : Parser) : Parser :=
  if p.chunked then opened p .chunkSize 0
  else if 0 < transferLengthOf p then opened p .body (transferLengthOf p)
  else opened p .body p.remainingContent

theorem bodyReport_upgrade (hu : p.connectionUpgrade) (rest : List UInt8) :
    bodyReport core p message rest = [.bodyDone, .incoming message] := by
  have hs : startBody p message =
      ({ p with
        transferLength := transferLengthOf p
        method := []
        uriOrReasonPhrase := []
        state := .upgraded
        incoming := false }, [.bodyDone, .incoming message]) := if_pos hu
  rw [bodyReport, hs, meaning_stopped rfl]
  rfl

theorem bodyReport_none (message : Incoming Uri) (hu : p.connectionUpgrade = false)
    (he : p.endsHere) (hst : p.state = .headerEnding) :
    ∃ p', Fresh p.requestParser p' ∧ ∀ rest, bodyReport core p message rest =
      .bodyDone :: .incoming message :: meaning core p' rest := by
  have hs : startBody p message =
      (endMessage { p with
        transferLength := transferLengthOf p
        method := []
        uriOrReasonPhrase := [] }, [.bodyDone, .incoming message]) :=
    (if_neg (by simp [hu])).trans (if_pos he)
  refine ⟨(startBody p message).1, ?_, fun rest => ?_⟩
  · rw [hs, Fresh, endMessage, reset, if_neg (by simp [hst])]
    rfl
  · rw [bodyReport, hs]
    rfl

theorem bodyReport_body (hu : p.connectionUpgrade = false) (he : ¬p.endsHere)
    (rest : List UInt8) :
    bodyReport core p message rest = .incoming message :: meaning core (bodyParser p) rest := by
  have hs : startBody p message = (bodyParser p, [.incoming message]) := by
    refine (if_neg (by simp [hu])).trans ((if_neg he).trans ?_)
    rw [bodyParser]
    split_ifs <;> rfl
  rw [bodyReport, hs]
  rfl

theorem Fresh.meaning_nil_ne {requestParser : Bool} (h : Fresh requestParser p) :
    meaning core p [] ≠ [] := by
  rw [h]
  cases requestParser <;> simp [meaning, Parser.stopped, new, onDone, observe]

def emptyBody : ChunkedBody where
  chunks := []
  last := ⟨[(0, false)], [], by simp, Or.inl rfl⟩
  last_zero := rfl

theorem meaning_body_head (hst : p.state = .body)
    (hl : p.remainingContent < 0 ∨ 1 ≤ p.remainingContent) (byte : UInt8) (rest : List UInt8) :
    (meaning core p (byte :: rest)).head? = some (.data [byte]) := by
  have hd : meaning core p ([byte] ++ rest) = _ :=
    meaning_data hst [byte] (by simp) (by simpa using hl) rest
  rw [singleton_append] at hd
  rw [hd, observe_data]
  rfl

section

variable (hst : p.state = .headerEnding)

include hst

theorem framed_none_iff :
    Framed core p.requestParser (bodyReport core p message) message .none ↔
      p.connectionUpgrade = false ∧ p.endsHere := by
  constructor
  · intro h
    obtain ⟨p', hf, hr⟩ := h []
    have hu : p.connectionUpgrade = false := by
      by_contra hu
      rw [bodyReport_upgrade core (by simpa using hu)] at hr
      exact hf.meaning_nil_ne core (by simpa using hr.symm)
    refine ⟨hu, by_contra fun he => ?_⟩
    rw [bodyReport_body core hu he] at hr
    cases hr
  · rintro ⟨hu, he⟩ rest
    obtain ⟨p', hf, hr⟩ := bodyReport_none core message hu he hst
    exact ⟨p', hf, hr rest⟩

theorem body_of_report {rest : List UInt8} {events : List (Event Uri)}
    (h : bodyReport core p message rest = .incoming message :: events) :
    p.connectionUpgrade = false ∧ ¬p.endsHere := by
  have hu : p.connectionUpgrade = false := by
    by_contra hu
    rw [bodyReport_upgrade core (by simpa using hu)] at h
    cases h
  refine ⟨hu, fun he => ?_⟩
  obtain ⟨_, -, hr⟩ := bodyReport_none core message hu he hst
  rw [hr] at h
  cases h

theorem framed_chunked_iff (hrm : p.remainingContent = -1) :
    Framed core p.requestParser (bodyReport core p message) message .chunked ↔
      (p.connectionUpgrade = false ∧ ¬p.endsHere) ∧ p.chunked := by
  constructor
  · intro h
    obtain ⟨p', -, hr⟩ := h emptyBody []
    have hbd := body_of_report core hst hr
    refine ⟨hbd, by_contra fun hc => ?_⟩
    rw [bodyReport_body core hbd.1 hbd.2, bodyParser, if_neg hc] at hr
    have hd (n : ℤ) (hn : n < 0 ∨ 1 ≤ n) :
        (meaning core (opened p .body n) (emptyBody.bytes ++ [])).head? = some (.data [ZERO]) :=
      meaning_body_head core rfl hn ZERO [CR, LF, CR, LF]
    have hh := congrArg List.head? (tail_eq_of_cons_eq hr)
    split_ifs at hh with hl
    · rw [hd _ (.inr hl)] at hh
      cases hh
    · rw [hd _ (.inl (by rw [hrm]; decide))] at hh
      cases hh
  · rintro ⟨⟨hu, he⟩, hc⟩ body rest
    have hi : Inside (opened p .chunkSize 0) := ⟨rfl, hc, by simp [opened]⟩
    obtain ⟨p', hfresh, hmeaning⟩ : ∃ p', Fresh p.requestParser p' ∧
        meaning core (opened p .chunkSize 0) (body.bytes ++ rest) =
          dataEvents body.data ++ .bodyDone :: meaning core p' rest :=
      (meaning_chunkedBody hi rfl rfl body).1 rest
    refine ⟨p', hfresh, ?_⟩
    rw [bodyReport_body core hu he, bodyParser, if_pos hc, hmeaning]
    rfl

theorem framed_length_iff {n : ℕ} (hc : p.chunked = false)
    (hl : p.headers.contentLength = n) (hn : n ≠ 0) :
    Framed core p.requestParser (bodyReport core p message) message (.length n) ↔
      p.connectionUpgrade = false ∧ ¬p.endsHere := by
  constructor
  · intro h
    obtain ⟨_, -, hr⟩ := h (List.replicate n 0) [] (length_replicate ..)
    exact body_of_report core hst hr
  · rintro ⟨hu, hends⟩ body rest hbd
    have ht : transferLengthOf p = n := by
      rw [transferLengthOf, if_neg (by simp [hu]), if_neg (by simp [hc]),
        if_neg (by omega), hl]
    have he : (endData (takeData (opened p .body n) body.length) : Parser × List (Event Uri)) =
        (endMessage (opened p .body 0), [.bodyDone]) := by
      rw [hbd, takeData_all rfl, endData, if_pos rfl, if_neg (by simp [opened, hc])]
      rfl
    have hd : meaning core (opened p .body n) (body ++ rest) = _ :=
      meaning_data rfl body (by rintro rfl; exact hn hbd.symm) (Or.inr (by simp [hbd, opened])) rest
    refine ⟨endMessage (opened p .body 0), rfl, ?_⟩
    rw [bodyReport_body core hu hends, bodyParser, if_neg (by simp [hc]), ht,
      if_pos (by omega), hd, he, observe_data]
    simp [dataEvents, observe]

theorem framed_close_iff (hc : p.chunked = false)
    (hl : p.headers.contentLength = -1) (hr : p.remainingContent = -1) :
    Framed core p.requestParser (bodyReport core p message) message .close ↔
      p.connectionUpgrade = false ∧ ¬p.endsHere := by
  constructor
  · intro h
    exact body_of_report core hst (h [])
  · rintro ⟨hu, hends⟩ rest
    have ht : transferLengthOf p = -1 := by
      have heq : transferLengthOf p =
          if p.messageType = .request ∧ p.headers.contentLength < 0 then 0
            else p.headers.contentLength := by
        rw [transferLengthOf, if_neg (by simp [hu]), if_neg (by simp [hc])]
      split_ifs at heq
      · exact absurd (.inl heq) hends
      · exact heq.trans hl
    have hdn : meaning core (opened p .body (-1)) [] = [.bodyDone, .done] := by
      have hs : (opened p .body (-1)).stopped = false := rfl
      rw [meaning, if_neg (by simp [hs]), onDone]
      simp [opened, hc, ht, observe]
    have hd : meaning core (opened p .body (-1)) rest = dataEvents rest ++ [.bodyDone, .done] := by
      cases rest with
      | nil => exact hdn
      | cons byte rest =>
        have hd : meaning core (opened p .body (-1)) (byte :: rest ++ []) = _ :=
          meaning_data rfl (byte :: rest) (by simp) (.inl (by simp [opened])) []
        have he (n : ℕ) : (endData (takeData (opened p .body (-1)) n) : Parser × List (Event Uri)) =
            (opened p .body (-1), []) := rfl
        rw [append_nil, he, hdn, observe_data] at hd
        rw [hd]
        simp [dataEvents]
    rw [bodyReport_body core hu hends, bodyParser, if_neg (by simp [hc]), ht,
      if_neg (by decide), hr, hd]
    rfl

end

end Bodies

variable {toHead : Bool} {head : List UInt8}

section Conformance

/-- When the end of a message is the one of section 4.4: there is no upgrade, and
* if the message has no body, the start line is a status line after which the parser still knows so, or
  the fields by themselves say that there is no body;
* otherwise `chunked` is named if and only if it stands alone, and the start line is a status line unless
  the fields say how the message ends.
The parser runs the lines of a folded value together. -/
def Conforms (p : Parser) (toHead : Bool) (head : List UInt8) : Prop :=
  (runTogether head).any isUpgrade = false ∧
    if p.requestParser = false ∧ (toHead = true ∨ saysNoBody head) then
      isStatusLine head ∧ (p.noMessageBody = true ∨ saysNoBody head) ∨
        (runTogether head).any isChunked = false ∧ (contentLength core (runTogether head) = some 0 ∨
          ¬isStatusLine head ∧ ∀ n ∈ contentLength core (runTogether head), n < 0)
    else
      (runTogether head).any isChunked = (fieldsOf head).any namesChunked ∧
        (p.requestParser = true ∨ isStatusLine head ∨ (fieldsOf head).any namesChunked = true ∨
          (declaredLength (fieldsOf head)).isSome = true)

variable {core} {q : Parser} {clean isHead requestParser : Bool} {fields : List (Text × Text)}

theorem saysNoBody_iff (hg : HasStartLine head) (hl : isStatusLine head) :
    saysNoBody head ↔ noBody (number (codeOf (startLine head))) := by
  have hs := hg.2 hl
  rw [statusCode] at hs
  split_ifs at hs with hc
  · simp [saysNoBody, statusCode, hc, hl]
  · cases hs

section Numbers

theorem isBlank_of_isDigit {byte : UInt8} (h : isDigit byte) : isBlank byte = false := by
  have ha : ∀ n < 256, isDigit (UInt8.ofNat n) → isBlank (UInt8.ofNat n) = false := by decide +kernel
  have hb := ha byte.toNat byte.toNat_lt
  rw [UInt8.ofNat_toNat] at hb
  exact hb h

theorem eq_append_trim (value : Text) :
    ∃ before after : Text, before.all isBlank ∧ after.all isBlank ∧ value = before ++ trim value ++ after := by
  refine ⟨value.takeWhile isBlank, (value.dropWhile isBlank).rtakeWhile isBlank, ?_, ?_, ?_⟩
  · exact all_takeWhile
  · exact all_eq_true.mpr fun _ => mem_rtakeWhile_imp
  · rw [trim, append_assoc, rdropWhile_append_rtakeWhile, takeWhile_append_dropWhile]

theorem sublist_flatMap (values : List Text) : values.flatten <+ values.flatMap (SP :: ·) := by
  induction values with
  | nil => exact .slnil
  | cons v vs ih =>
    rw [flatten_cons, flatMap_cons, cons_append]
    exact ((Sublist.refl v).append ih).cons SP

theorem filter_flatMap_blank (values : List Text) :
    (values.flatMap (SP :: ·)).filter (!isBlank ·) = values.flatten.filter (!isBlank ·) := by
  induction values with
  | nil => rfl
  | cons v vs ih =>
    rw [flatten_cons, flatMap_cons, filter_append, filter_append, ih]
    rfl

theorem filter_blank {t : Text} (h : t.all isBlank) : t.filter (!isBlank ·) = [] :=
  filter_eq_nil_iff.mpr fun b hb => by simp [all_eq_true.mp h b hb]

theorem filter_digits {t : Text} (h : t.all isDigit) : t.filter (!isBlank ·) = t :=
  filter_eq_self.mpr fun b hb => by simp [isBlank_of_isDigit (all_eq_true.mp h b hb)]

/-- A number in the lines of a value is there when they are run together. -/
theorem parseInt_flatten (hc : core.ReadsNumbers) {values : List Text}
    (h : isNumber (trim (values.flatMap (SP :: ·)))) :
    core.parseInt values.flatten = some (number (trim (values.flatMap (SP :: ·)))) := by
  obtain ⟨before, after, hb, ha, heq⟩ := eq_append_trim (values.flatMap (SP :: ·))
  have hs := sublist_flatMap values
  have hf := filter_flatMap_blank values
  have hdg : (trim (values.flatMap (SP :: ·))).all isDigit := (Bool.and_eq_true_iff.mp h).2
  generalize trim (values.flatMap (SP :: ·)) = digits at h hdg heq ⊢
  rw [heq] at hs hf
  -- What is left out is blank, so the digits stay together.
  obtain ⟨l, after', hl, hs, haf⟩ := sublist_append_iff.mp hs
  obtain ⟨before', digits', rfl, hbf, hs⟩ := sublist_append_iff.mp hs
  have hal {t u : Text} (ht : t <+ u) (hu : u.all isBlank) : t.all isBlank :=
    all_eq_true.mpr fun b hb => all_eq_true.mp hu b (ht.subset hb)
  have hd : digits'.all isDigit := all_eq_true.mpr fun b hb => all_eq_true.mp hdg b (hs.subset hb)
  rw [hl, filter_append, filter_append, filter_append, filter_append, filter_blank hb, filter_blank ha,
    filter_blank (hal hbf hb), filter_blank (hal haf ha), filter_digits hdg,
    filter_digits hd] at hf
  obtain rfl : digits = digits' := by simpa using hf
  rw [hl]
  exact hc _ _ _ (hal hbf hb) (hal haf ha) h

theorem findSome?_congr {α β : Type} {g g' : α → Option β} {l : List α} (h : ∀ a ∈ l, g a = g' a) :
    l.findSome? g = l.findSome? g' := by
  induction l with
  | nil => rfl
  | cons a l ih =>
    rw [findSome?_cons, findSome?_cons, h a mem_cons_self, ih fun b hb => h b (mem_cons_of_mem a hb)]

theorem number_nonneg {digits : Text} (h : digits.all isDigit) : 0 ≤ number digits := by
  induction digits using reverseRecOn with
  | nil => exact Int.le_refl 0
  | append_singleton digits digit ih =>
    rw [all_append, all_cons, Bool.and_eq_true, Bool.and_eq_true] at h
    have hd : 0x30 ≤ digit.toNat := (of_decide_eq_true h.2.1).1
    have := ih h.1
    rw [number_concat]
    omega

theorem declaredLength_nonneg {n : ℤ}
    (h : ¬∃ field ∈ fields, field.1 = text "content-length" ∧ isNumber field.2 = false)
    (hn : declaredLength fields = some n) : 0 ≤ n := by
  obtain ⟨field, hf, heq⟩ := exists_of_findSome?_eq_some hn
  split_ifs at heq with hnm
  cases heq
  refine number_nonneg (by_contra fun hd => h ⟨field, mem_reverse.mp hf, hnm, ?_⟩)
  simp [isNumber, Bool.not_eq_true _ ▸ hd]

/-- The parser takes the content length that is declared. -/
theorem contentLength_runTogether (hc : core.ReadsNumbers)
    (h : ¬∃ field ∈ fieldsOf head, field.1 = text "content-length" ∧ isNumber field.2 = false) :
    contentLength core (runTogether head) = declaredLength (fieldsOf head) := by
  rw [contentLength, declaredLength, runTogether, fieldsOf, ← map_reverse, ← map_reverse, findSome?_map,
    findSome?_map]
  refine findSome?_congr fun field hf => ?_
  dsimp only [Function.comp_apply]
  split_ifs with hnm
  · refine parseInt_flatten hc (by_contra fun hn => h ⟨_, mem_map_of_mem (mem_reverse.mp hf), hnm, ?_⟩)
    simpa using hn
  · rfl

end Numbers

/-- A length that is not declared is negative, as one that has no meaning is. -/
theorem LengthIs.sign_iff {declared : Option ℤ} {actual : ℤ} (h : LengthIs declared actual) :
    (actual = 0 ↔ declared = some 0) ∧ (actual < 0 ↔ ∀ n ∈ declared, n < 0) := by
  cases declared with
  | none =>
    have h : actual = -1 := h
    simp [h]
  | some n =>
    obtain ⟨hp, hng⟩ := h
    simp only [some.injEq, mem_some_iff, forall_eq']
    by_cases hn : 0 ≤ n
    · rw [hp hn]
      exact ⟨Iff.rfl, Iff.rfl⟩
    · have := hng (by omega)
      omega

theorem endsHere_iff (hln : Line clean isHead head q) (hst : q.state = .headerEnding)
    (hu : q.connectionUpgrade = false) :
    q.endsHere ↔ isStatusLine head ∧ (isHead = true ∨ noBody q.statusCode) ∨
      q.chunked = false ∧ (q.headers.contentLength = 0 ∨
        ¬isStatusLine head ∧ q.headers.contentLength < 0) := by
  have hp : q.state.part = .fields := by rw [hst]; rfl
  have ht : transferLengthOf q = if q.chunked then -1 else
      if q.messageType = .request ∧ q.headers.contentLength < 0 then 0 else q.headers.contentLength := by
    rw [transferLengthOf, if_neg (by simp [hu])]
  rw [Parser.endsHere, ht]
  cases hln with
  | response _ ha hf _ =>
    cases hc : q.chunked <;> simp [ha.messageType, hf, ha.head, or_comm]
  | request _ hr hty =>
    have hn : ¬isStatusLine head := fun h => hr.head [] (by simpa using h)
    cases hc : q.chunked with
    | true => simp [hty, hn]
    | false =>
      simp only [hty, hn]
      by_cases hneg : q.headers.contentLength < 0 <;> simp [hneg]
  | _ => simp_all

section

variable (hln : Line clean isHead head q) (htk : Taken core clean requestParser fields q)
  (hst : q.state = .headerEnding)
  (hbd : ¬(isStatusLine head ∧ (isHead = true ∨ noBody q.statusCode)))

include hln htk hst hbd

theorem framed_iff_of_chunked :
    Framed core q.requestParser (bodyReport core q message) message .chunked ↔
      q.connectionUpgrade = false ∧ q.chunked := by
  rw [framed_chunked_iff core hst htk.remaining, and_assoc]
  refine and_congr_right fun hu => and_iff_right_of_imp fun hc => ?_
  rw [endsHere_iff hln hst hu, or_iff_right hbd]
  rintro ⟨hf, -⟩
  exact absurd (hc.symm.trans hf) (by simp)

/-- A chunked message does not end in another way. -/
theorem not_framed_of_chunked (hc : q.chunked) {kind : Framing} (hk : kind ≠ .chunked)
    (hz : kind ≠ .length 0) :
    ¬Framed core q.requestParser (bodyReport core q message) message kind := by
  intro hf
  have he {rest : List UInt8} {events : List (Event Uri)}
      (h : bodyReport core q message (emptyBody.bytes ++ rest) = .incoming message :: events) :
      events.head? = some .bodyDone := by
    have hf : Framed core q.requestParser (bodyReport core q message) message .chunked :=
      (framed_chunked_iff core hst htk.remaining).mpr ⟨body_of_report core hst h, hc⟩
    obtain ⟨_, -, hr⟩ := hf emptyBody rest
    rw [h] at hr
    exact tail_eq_of_cons_eq hr ▸ rfl
  cases kind with
  | none =>
    obtain ⟨hu, hen⟩ := (framed_none_iff core hst).mp hf
    rw [endsHere_iff hln hst hu, or_iff_right hbd] at hen
    exact absurd (hc.symm.trans hen.1) (by simp)
  | chunked => exact hk rfl
  | close => cases he (hf (emptyBody.bytes ++ []))
  | length n =>
    cases n with
    | zero => exact hz rfl
    | succ n =>
      obtain ⟨_, -, hr⟩ := hf (ZERO :: ([CR, LF, CR, LF] ++ replicate n 0).take n)
        (([CR, LF, CR, LF] ++ replicate n 0).drop n)
        (congrArg Nat.succ (length_take_of_le (by rw [length_append, length_replicate]; omega)))
      rw [cons_append, take_append_drop] at hr
      cases he hr

theorem framed_iff_of_undeclared (hc : q.chunked = false)
    (hd : contentLength core fields = none) :
    Framed core q.requestParser (bodyReport core q message) message
        (if q.requestParser then .none else .close) ↔
      q.connectionUpgrade = false ∧ (q.requestParser = true ∨ isStatusLine head) := by
  have hl : q.headers.contentLength = -1 := by
    have := htk.length hc
    rwa [hd] at this
  have he (hu : q.connectionUpgrade = false) : q.endsHere ↔ ¬isStatusLine head := by
    rw [endsHere_iff hln hst hu, or_iff_right hbd, and_iff_right hc, hl]
    simp
  by_cases hparser : q.requestParser
  · have hn : ¬isStatusLine head := fun h =>
      absurd (hparser.symm.trans (hln.requestParser_eq hst h)) (by simp)
    rw [if_pos hparser, framed_none_iff core hst]
    exact and_congr_right fun hu => iff_of_true ((he hu).mpr hn) (.inl hparser)
  · rw [if_neg hparser, framed_close_iff core hst hc hl htk.remaining]
    refine and_congr_right fun hu => ?_
    rw [he hu, not_not]
    exact (or_iff_right hparser).symm

theorem framed_iff_of_length {n : ℤ} (message : Incoming Uri) (hc : q.chunked = false)
    (hd : contentLength core fields = some n) (hn : 0 ≤ n) :
    Framed core q.requestParser (bodyReport core q message) message
        (if n = 0 then .none else .length n.toNat) ↔
      q.connectionUpgrade = false := by
  have hl : q.headers.contentLength = n := by
    have := htk.length hc
    rw [hd] at this
    exact this.1 hn
  have he (hu : q.connectionUpgrade = false) : q.endsHere ↔ n = 0 := by
    rw [endsHere_iff hln hst hu, or_iff_right hbd, and_iff_right hc, hl]
    simp [Int.not_lt.mpr hn]
  by_cases hz : n = 0
  · rw [if_pos hz, framed_none_iff core hst]
    exact and_iff_left_of_imp fun hu => (he hu).mpr hz
  · rw [if_neg hz, framed_length_iff core hst hc (by omega) (by omega)]
    exact and_iff_left_of_imp fun hu => mt (he hu).mp hz

end

/-- **When the end of a message is the one of section 4.4**, for every head that is accepted on any
connection.  The flag of the parser is set for responses to `HEAD` requests only. -/
theorem framed_iff (hcore : core.ReadsNumbers) (hp : Reachable core p) (hstart : p.state = .start)
    (hhead : readHead core p [] head = some (fields, message))
    (hflag : p.noMessageBody = true → toHead = true) {kind : Framing}
    (hkind : framing p.requestParser toHead head = some kind) :
    Framed core p.requestParser (fun rest => meaning core p (head ++ rest)) message kind ↔
      Conforms core p toHead head := by
  have hg : HasStartLine head := by
    by_contra hnot
    rw [framing, if_pos hnot] at hkind
    cases hkind
  rw [framing, if_neg (not_not.mpr hg)] at hkind
  have hid := hp.idle hstart
  obtain ⟨q, hln, htk, hst, ⟨_, hur⟩, hmeaning⟩ := readHead_spec hid.line hid.taken hhead
  have hrd := readHead_fields hid.line hid.scan hhead hg
  rw [nil_append] at hrd
  obtain ⟨rfl, hcd⟩ := hrd
  have hr : (fun rest => meaning core p (head ++ rest)) = bodyReport core q message :=
    funext hmeaning
  have hs (hl : isStatusLine head) : noBody q.statusCode = true ↔ saysNoBody head := by
    have hcd : q.statusCode = number (codeOf (startLine head)) := by
      have := hcd hl
      rwa [hur, createIncoming, hln.requestParser_eq hst hl] at this
    exact hcd ▸ (saysNoBody_iff hg hl).symm
  rw [hr, Conforms, ← htk.upgrade, ← htk.chunked]
  by_cases hrule : p.requestParser = false ∧ (toHead = true ∨ saysNoBody head)
  · rw [if_pos hrule] at hkind ⊢
    cases hkind
    rw [← htk.parser, framed_none_iff core hst]
    refine and_congr_right fun hu => ?_
    rw [endsHere_iff hln hst hu]
    refine or_congr (and_congr_right fun hl => or_congr_right (hs hl))
      (and_congr_right fun hc => ?_)
    rw [(htk.length hc).sign_iff.1, (htk.length hc).sign_iff.2]
    rfl
  rw [if_neg hrule] at hkind ⊢
  -- by the status line there is a body
  have hbd : ¬(isStatusLine head ∧ (p.noMessageBody = true ∨ noBody q.statusCode = true)) := by
    rintro ⟨hl, hnone⟩
    have hpr : p.requestParser = false := htk.parser.symm.trans (hln.requestParser_eq hst hl)
    exact hrule ⟨hpr, hnone.imp hflag (hs hl).mp⟩
  rw [← htk.parser] at hkind ⊢
  by_cases hnames : (fieldsOf head).any namesChunked = true
  · rw [if_pos hnames] at hkind
    cases hkind
    rw [framed_iff_of_chunked hln htk hst hbd]
    simp [hnames]
  rw [if_neg hnames] at hkind
  by_cases hnumber : ∃ field ∈ fieldsOf head, field.1 = text "content-length" ∧ isNumber field.2 = false
  · rw [if_pos hnumber] at hkind
    cases hkind
  rw [if_neg hnumber] at hkind
  have hn (n : ℤ) (h : declaredLength (fieldsOf head) = some n) : 0 ≤ n :=
    declaredLength_nonneg hnumber h
  cases hc : q.chunked with
  | true =>
    have ho : kind ≠ .chunked ∧ kind ≠ .length 0 := by
      cases hd : declaredLength (fieldsOf head) with
      | none =>
        rw [hd] at hkind
        cases hkind
        cases q.requestParser <;> simp
      | some n =>
        rw [hd] at hkind
        cases hkind
        have := hn n hd
        by_cases hz : n = 0
        · simp [hz]
        · simp only [hz, if_false, ne_eq, reduceCtorEq, not_false_eq_true, Framing.length.injEq, true_and]
          omega
    refine iff_of_false (not_framed_of_chunked hln htk hst hbd hc ho.1 ho.2)
      fun h => ?_
    simp [hnames] at h
  | false =>
    have hlg := contentLength_runTogether hcore hnumber
    cases hd : declaredLength (fieldsOf head) with
    | none =>
      rw [hd] at hkind hlg
      cases hkind
      rw [framed_iff_of_undeclared hln htk hst hbd hc hlg]
      simp [hnames]
    | some n =>
      rw [hd] at hkind hlg
      cases hkind
      rw [framed_iff_of_length hln htk hst hbd message hc hlg
        (hn n hd)]
      simp [hnames]

theorem trim_append {before digits after : Text} (hb : before.all isBlank) (ha : after.all isBlank)
    (hd : isNumber digits) : trim (before ++ digits ++ after) = digits := by
  obtain ⟨hne, hal⟩ := Bool.and_eq_true_iff.mp hd
  have hdg (b : UInt8) (hm : b ∈ digits) : isBlank b = false :=
    isBlank_of_isDigit (all_eq_true.mp hal b hm)
  cases digits with
  | nil => cases hne
  | cons digit digits =>
    have hdr : (before ++ (digit :: digits) ++ after).dropWhile isBlank = digit :: digits ++ after := by
      rw [append_assoc, dropWhile_append_of_pos (all_eq_true.mp hb), cons_append,
        dropWhile_cons_of_neg (by simp [hdg])]
    have hl : (digit :: digits).rdropWhile isBlank = digit :: digits :=
      rdropWhile_eq_self_iff.mpr fun h => by simp [hdg _ (getLast_mem h)]
    rw [trim, hdr, rdropWhile, reverse_append, dropWhile_append_of_pos fun b hm =>
      all_eq_true.mp ha b (mem_reverse.mp hm)]
    exact hl

/-- `int.parse` on decimal digits. -/
def decimal : Core Text where
  parseInt value := if isNumber (trim value) then some (number (trim value)) else none
  parseUri := some

theorem decimal_readsNumbers : decimal.ReadsNumbers := by
  intro before digits after hb ha hd
  change (if isNumber (trim (before ++ digits ++ after)) then _ else none) = _
  rw [trim_append hb ha hd, if_pos hd]

/-- A content length on a line of its own. -/
theorem framed_iff_folded : ∃ message,
    Framed decimal true (fun rest => meaning decimal (new true false)
      (text "PUT / HTTP/1.1\r\nContent-Length:\r\n 5\r\n\r\n" ++ rest)) message (.length 5) := by
  have hr : (readHead decimal (new true false) []
      (text "PUT / HTTP/1.1\r\nContent-Length:\r\n 5\r\n\r\n")).isSome = true := by decide +kernel
  obtain ⟨⟨fields, message⟩, hhead⟩ := isSome_iff_exists.mp hr
  have hk : framing true false (text "PUT / HTTP/1.1\r\nContent-Length:\r\n 5\r\n\r\n") =
      some (.length 5) := by decide +kernel
  refine ⟨message, (framed_iff decimal_readsNumbers (.new true) rfl hhead (by simp [new])
    hk).mpr ⟨by decide +kernel, ?_⟩⟩
  rw [if_neg (by simp [new])]
  exact ⟨by decide +kernel, .inl rfl⟩

end Conformance

section Deviations

/-- A head is accepted, and the message does not end where section 4.4 says. -/
def Misframed (p : Parser) (toHead : Bool) (head : List UInt8) : Prop :=
  Reachable core p ∧ p.state = .start ∧ ∃ fields message kind,
    readHead core p [] head = some (fields, message) ∧
    framing p.requestParser toHead head = some kind ∧
    ¬Framed core p.requestParser (fun rest => meaning core p (head ++ rest)) message kind

def feeds (p : Parser) (bytes : List UInt8) : Parser :=
  bytes.foldl (fun p byte => (feed core p byte).1) p

def startsWithMessage : List (Event Uri) → Bool
  | .incoming _ :: _ => true
  | _ => false

variable {core}

theorem reachable_feeds (hp : Reachable core p) (bytes : List UInt8) :
    Reachable core (feeds core p bytes) := by
  induction bytes generalizing p with
  | nil => exact hp
  | cons byte bytes ih => exact ih (.feed byte hp)

/-- It should have no body, and it has one; or it should be chunked, and it has no body. -/
theorem misframed_of {kind : Framing} (rest : List UInt8) (hp : Reachable core p)
    (hs : p.state = .start)
    (hk : kind = .none ∨ kind = .chunked ∧ rest = emptyBody.bytes ++ [])
    (hrd : (readHead core p [] head).isSome)
    (hfr : framing p.requestParser toHead head = some kind)
    (hr : startsWithMessage (meaning core p (head ++ rest)) = decide (kind = .none)) :
    Misframed core p toHead head := by
  obtain ⟨⟨fields, message⟩, hhead⟩ := isSome_iff_exists.mp hrd
  refine ⟨hp, hs, fields, message, kind, hhead, hfr, fun hf => ?_⟩
  rcases hk with rfl | ⟨rfl, rfl⟩
  · obtain ⟨_, -, h⟩ := hf rest
    dsimp only at h
    rw [h] at hr
    cases hr
  · obtain ⟨_, -, h⟩ := hf emptyBody []
    dsimp only at h
    rw [h] at hr
    cases hr

/-- The final response to a `HEAD` request after an interim one has a body, and so has the answer to a
`HEAD` request that starts with a request line; a list of transfer codings that ends with `chunked` is
not seen, and a transfer coding that is no more than the two halves of `chunked` is. -/
theorem misframed_messages :
    Misframed decimal
        (feeds decimal (setIsHead (new false false) true) (text "HTTP/1.1 100 Continue\r\n\r\n")) true
        (text "HTTP/1.1 200 OK\r\nContent-Length: 5\r\n\r\n") ∧
      Misframed decimal (setIsHead (new false false) true) true
        (text "H / HTTP/1.1\r\nContent-Length: 5\r\n\r\n") ∧
      Misframed decimal (new true false) false
        (text "POST / HTTP/1.1\r\nTransfer-Encoding: gzip, chunked\r\n\r\n") ∧
      Misframed decimal (new true false) false
        (text "POST / HTTP/1.1\r\nTransfer-Encoding: chun\r\n ked\r\n\r\n") := by
  have hh : Reachable decimal (setIsHead (new false false) true) := .setIsHead true (.new false)
  refine ⟨misframed_of [] (reachable_feeds hh _) ?_ (.inl rfl) ?_ ?_ ?_,
    misframed_of [] hh rfl (.inl rfl) ?_ ?_ ?_,
    misframed_of _ (.new true) rfl (.inr ⟨rfl, rfl⟩) ?_ ?_ ?_,
    misframed_of [] (.new true) rfl (.inl rfl) ?_ ?_ ?_⟩
  all_goals decide +kernel

end Deviations

end DartSdk.Io.HttpParser
