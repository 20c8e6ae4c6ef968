import DartSdk.Io.HttpParser.Buffering

/-!
# The head of an HTTP message

A head is read from its first byte to the one that reports the message.  What the parser knows of it by
then is what the start line and the fields say.

* `Reachable.idle`: **between two messages the parser is as good as new**;
* `readHead_spec`: what is known at the end of a head.
-/

namespace DartSdk.Io.HttpParser

open List Option HttpHeaders

variable {Uri : Type} (core : Core Uri)

section Heads

/-- The setter `isHead`. -/
def setIsHead (p : Parser) (value : Bool) : Parser :=
  if value then { p with noMessageBody := true } else p

/-- The parsers on a connection that has delivered any bytes so far. -/
inductive Reachable : Parser → Prop
  | new (requestParser : Bool) : Reachable (new requestParser false)
  | feed {p : Parser} (byte : UInt8) : Reachable p → Reachable (feed core p byte).1
  | setIsHead {p : Parser} (value : Bool) : Reachable p → Reachable (setIsHead p value)

/-- The parser is between two messages: all but `_httpVersionIndex`, which is not read before it is
set, is as in a new parser. -/
def Parser.Idle (p : Parser) : Prop :=
  p = { new p.requestParser p.noMessageBody with httpVersionIndex := p.httpVersionIndex }

def fieldAt (p : Parser) (byte : UInt8) : List (Text × Text) :=
  if p.state = .headerValueFoldOrEnd ∧ byte ≠ SP ∧ byte ≠ HT then [(p.headerField, p.headerValue)]
  else []

def reported : List (Event Uri) → Option (Incoming Uri)
  | [] => none
  | .incoming message :: _ => some message
  | _ :: events => reported events

/-- The fields and the message of a head: nothing is reported before its last byte. -/
def readHead (p : Parser) (fields : List (Text × Text)) :
    List UInt8 → Option (List (Text × Text) × Incoming Uri)
  | [] => none
  | byte :: rest =>
    if (feed core p byte).2.isEmpty then
      readHead (feed core p byte).1 (fields ++ fieldAt p byte) rest
    else if rest.isEmpty then
      (reported (feed core p byte).2).map fun message => (fields ++ fieldAt p byte, message)
    else none

/-- The field by which the parser knows a chunked message. -/
def isChunked (field : Text × Text) : Bool :=
  field.1 = text "transfer-encoding" && caseInsensitiveCompare (text "chunked") field.2

/-- The field by which the parser knows an upgrade. -/
def isUpgrade (field : Text × Text) : Bool :=
  field.1 = text "connection" &&
    (tokenizeFieldValue field.2).any (caseInsensitiveCompare (text "upgrade"))

/-- The content length that the fields declare; the last one counts. -/
def contentLength (fields : List (Text × Text)) : Option ℤ :=
  fields.reverse.findSome? fun field =>
    if field.1 = text "content-length" then core.parseInt field.2 else none

/-- The responses that never have a body. -/
def noBody (status : ℤ) : Bool := (100 ≤ status ∧ status ≤ 199) ∨ status = 204 ∨ status = 304

def isStatusLine (head : List UInt8) : Prop := text "HTTP/" <+: head

def isDigit (byte : UInt8) : Bool := 0x30 ≤ byte ∧ byte ≤ 0x39

def IsToken (name : Text) : Prop := name ≠ [] ∧ name.all isTokenChar = true

/-- What may come in a state by the rules for methods, status codes and the names of fields. -/
def allowed (p : Parser) (byte : UInt8) : Bool :=
  match p.state with
  | .start => if p.requestParser then isTokenChar byte else byte = http.getD 0 0
  | .methodOrResponseHttpVersion =>
    if p.requestParser then byte = SP ∨ isTokenChar byte
    else (text "HTTP/")[p.httpVersionIndex]? = some byte
  | .requestLineMethod => byte = SP ∨ isTokenChar byte
  | .responseLineStatusCode =>
    if p.statusCodeLength < 3 then isDigit byte else byte = SP ∨ byte = CR
  | .headerStart => byte = CR ∨ byte = LF ∨ isTokenChar byte
  | .headerField => byte = COLON ∨ isTokenChar byte
  | .headerValueFoldOrEnd => byte = SP ∨ byte = HT ∨ byte = CR ∨ byte = LF ∨ isTokenChar byte
  | _ => true

/-- The bytes that are not allowed and that the parser takes. -/
def slips (p : Parser) (byte : UInt8) : Bool :=
  !allowed p byte &&
    match p.state with
    | .methodOrResponseHttpVersion =>
      if p.requestParser then ¬(p.httpVersionIndex = http.length ∧ byte = SLASH) else byte = SP
    | .requestLineMethod => ¬(isSeparator byte ∨ byte = CR ∨ byte = LF)
    | .responseLineStatusCode => p.statusCodeLength < 3
    | .headerStart | .headerValueFoldOrEnd => true
    | _ => false

def noSlip (clean : Bool) (p : Parser) : List UInt8 → Bool
  | [] => clean
  | byte :: rest => noSlip (clean && !slips p byte) (feed core p byte).1 rest

/-- `HTTP/1.1` and a space, a code of digits, and what comes after it. -/
def Coded (digits : ℕ) (head rest : List UInt8) : Prop :=
  ∃ version code, head = version ++ code ++ rest ∧ version.length = 9 ∧ code.length = digits ∧
    code.all isDigit = true

end Heads

variable {p p' : Parser} {byte : UInt8} {again : Bool} {events : List (Event Uri)}

section Steps

variable {core}

theorem next_eq_ok {result : Except ParseError Parser} (h : next result = .ok (p', again, events)) :
    result = .ok p' ∧ again = false ∧ events = [] := by
  cases result with
  | error e => cases h
  | ok p =>
    cases h
    exact ⟨rfl, rfl, rfl⟩

theorem map_eq_ok {α β : Type} {f : α → β} {result : Except ParseError α} {b : β}
    (h : result.map f = .ok b) : ∃ a, result = .ok a ∧ f a = b := by
  cases result with
  | error e => cases h
  | ok a => exact ⟨a, rfl, Except.ok.inj h⟩

end Steps

section Fields

variable {core} {h h' : HttpHeaders} {name value : Text} {n : ℤ}

/-- The content length of the header object when the fields declare one or none. -/
def LengthIs : Option ℤ → ℤ → Prop
  | none, actual => actual = -1
  | some n, actual => (0 ≤ n → actual = n) ∧ (n < 0 → actual < 0)

theorem setChunked_contentLength (hn : h.contentLength < 0) : h.setChunked.contentLength < 0 := by
  unfold setChunked
  dsimp only
  split_ifs with hs hls hl hl
  · exact hn
  · exact hn
  · exact (by decide : (-1 : ℤ) < 0)
  · exact hn
  · exact (by decide : (-1 : ℤ) < 0)

theorem setContentLength_length (hs : h.setContentLength n = .ok h') :
    LengthIs (some n) h'.contentLength := by
  unfold setContentLength at hs
  dsimp only at hs
  split_ifs at hs with hcl heq hp hc hv <;> cases hs
  · exact ⟨fun _ => heq, fun hn => heq ▸ hn⟩
  · refine ⟨fun _ => ?_, fun hn => absurd hp (Int.not_le.mpr hn)⟩
    simp only [HttpHeaders.set, put, removeChunked]
    split_ifs <;> rfl
  · exact ⟨fun _ => rfl, fun hn => absurd hp (Int.not_le.mpr hn)⟩
  · exact ⟨fun hn => absurd hn hp, fun hn => setChunked_contentLength hn⟩
  · exact ⟨fun hn => absurd hn hp, fun hn => hn⟩

theorem add_contentLength (ha : h.add core.parseInt (text "content-length") value = .ok h') :
    ∃ n, core.parseInt value = some n ∧ LengthIs (some n) h'.contentLength := by
  rw [add, if_neg (by decide), if_neg (by decide), if_pos rfl,
    addContentLength] at ha
  cases hp : core.parseInt value with
  | none =>
    rw [hp] at ha
    cases ha
  | some n =>
    rw [hp] at ha
    exact ⟨n, rfl, setContentLength_length ha⟩

theorem addConnection_contentLength (h : HttpHeaders) (value : Text) :
    (h.addConnection value).contentLength = h.contentLength := by
  unfold addConnection
  split_ifs <;> rfl

theorem add_other (ha : h.add core.parseInt name value = .ok h')
    (hn : name ≠ text "content-length")
    (hv : name = text "transfer-encoding" → value ≠ text "chunked") :
    h'.contentLength = h.contentLength := by
  rw [add, if_neg hn] at ha
  split_ifs at ha with hs hc he
  · cases ha
    rfl
  · cases ha
    exact addConnection_contentLength h value
  · rw [addTransferEncoding, if_neg (hv he)] at ha
    cases ha
    rfl
  · cases ha
    rfl

theorem contentLength_concat (fields : List (Text × Text)) (field : Text × Text) :
    contentLength core (fields ++ [field]) =
      (if field.1 = text "content-length" then core.parseInt field.2 else none).or
        (contentLength core fields) := by
  rw [contentLength, reverse_append, reverse_singleton, singleton_append,
    findSome?_cons]
  split <;> simp_all [contentLength]

theorem addTokens_ok {tokens : List Text}
    (ha : addTokens core p (text "connection") tokens = .ok p') :
    p' = { p with
      headers := p'.headers
      connectionUpgrade :=
        p.connectionUpgrade || tokens.any (caseInsensitiveCompare (text "upgrade")) } ∧
      p'.headers.contentLength = p.headers.contentLength := by
  induction tokens generalizing p with
  | nil =>
    cases ha
    simp
  | cons token tokens ih =>
    have hc : p.headers.add core.parseInt (text "connection") token =
        .ok (p.headers.addConnection token) := by
      rw [add, if_neg (by decide), if_pos rfl]
    obtain ⟨heq, hl⟩ := ih ha
    refine ⟨?_, hl.trans (addConnection_contentLength _ _)⟩
    rw [heq, any_cons, Bool.or_assoc]

theorem chunked_eq (p : Parser) :
    (if p.headerField = text "transfer-encoding" ∧
        caseInsensitiveCompare (text "chunked") p.headerValue then { p with chunked := true } else p) =
      { p with chunked := p.chunked || isChunked (p.headerField, p.headerValue) } := by
  split_ifs with h
  · simp [isChunked, h.1, h.2]
  · have hf : isChunked (p.headerField, p.headerValue) = false := by
      rw [isChunked, ← Bool.not_eq_true, Bool.and_eq_true, decide_eq_true_eq]
      exact h
    rw [hf, Bool.or_false]

/-- The parser when its field has been taken into these headers. -/
abbrev withField (p : Parser) (headers : HttpHeaders) : Parser :=
  { p with
    headers := headers
    chunked := p.chunked || isChunked (p.headerField, p.headerValue)
    connectionUpgrade := p.connectionUpgrade || isUpgrade (p.headerField, p.headerValue)
    headerField := []
    headerValue := [] }

theorem addHeader_ok (had : addHeader core p = .ok p') : ∃ headers, p' = withField p headers ∧
    (isChunked (p.headerField, p.headerValue) = false →
      ∀ fields, LengthIs (contentLength core fields) p.headers.contentLength →
        LengthIs (contentLength core (fields ++ [(p.headerField, p.headerValue)]))
          headers.contentLength) := by
  unfold addHeader at had
  rw [chunked_eq] at had
  obtain ⟨p₁, ha, rfl⟩ := map_eq_ok had
  dsimp only at ha ⊢
  split_ifs at ha with hc
  · rw [hc] at ha
    obtain ⟨heq, hl⟩ := addTokens_ok ha
    refine ⟨p₁.headers, ?_, fun _ fields hf => ?_⟩
    · rw [heq]
      simp [withField, isUpgrade, hc]
    · have hnm : p.headerField ≠ text "content-length" := by
        rw [hc]
        decide
      rw [contentLength_concat, if_neg hnm, none_or, hl]
      exact hf
  · obtain ⟨headers, hh, rfl⟩ := map_eq_ok ha
    refine ⟨headers, by simp [withField, isUpgrade, hc], fun hch fields hf => ?_⟩
    rw [contentLength_concat]
    by_cases hnm : p.headerField = text "content-length"
    · rw [hnm] at hh
      obtain ⟨n, hn, hl⟩ := add_contentLength hh
      rw [if_pos hnm, hn]
      exact hl
    · rw [if_neg hnm, none_or]
      have hv : p.headerField = text "transfer-encoding" → p.headerValue ≠ text "chunked" := by
        intro he hv
        have hs : caseInsensitiveCompare (text "chunked") (text "chunked") := by decide
        simp [isChunked, he, hv, hs] at hch
      rw [add_other hh hnm hv]
      exact hf

end Fields

section Parts

inductive Part
  | start
  | version
  | statusLine
  | requestLine
  | fields
  | body

@[simp]
def State.part : State → Part
  | .start => .start
  | .methodOrResponseHttpVersion => .version
  | .responseHttpVersion | .responseLineStatusCode | .responseLineReasonPhrase
  | .responseLineEnding => .statusLine
  | .requestLineMethod | .requestLineUri | .requestLineHttpVersion | .requestLineEnding => .requestLine
  | .headerStart | .headerField | .headerValueStart | .headerValue | .headerValueFoldingOrEnding
  | .headerValueFoldOrEnd | .headerEnding => .fields
  | _ => .body

@[simp]
def State.noField (state : State) : Bool :=
  match state.part with
  | .fields => state = .headerStart
  | .body => false
  | _ => true

def Named (p : Parser) : Prop :=
  if p.state.noField ∨ p.state = .headerEnding then p.headerField = [] else IsToken p.headerField

variable {core}

theorem line_frame (hf : p.state.noField) (hst : p.state ≠ .headerStart)
    (h : parseByte core p byte = .ok (p', again, events)) :
    events = [] ∧ p'.state.noField ∧ p'.state ≠ .start ∧
      p' = { p' with
        requestParser := p.requestParser
        incoming := p.incoming
        remainingContent := p.remainingContent
        chunked := p.chunked
        connectionUpgrade := p.connectionUpgrade
        headers := p.headers
        headerField := p.headerField } := by
  cases hs : p.state <;> simp [hs] at hf hst
  all_goals
    simp only [parseByte, hs] at h
    obtain ⟨h, -, he⟩ := next_eq_ok h
    simp only [parseStart, parseMethodOrResponseHttpVersion, parseResponseHttpVersion,
      parseRequestLineMethod, parseRequestLineUri, parseRequestLineHttpVersion,
      parseResponseLineStatusCode, parseResponseLineReasonPhrase, parseResponseLineEnding, expect,
      fail] at h
    split_ifs at h <;> cases h
    all_goals exact ⟨he, by simp [hs], by simp [hs], rfl⟩

theorem fieldAt_of_ne (h : p.state ≠ .headerValueFoldOrEnd) : fieldAt p byte = [] :=
  if_neg fun hf => h hf.1

theorem isTokenChar_lower (h : isTokenChar byte) :
    isTokenChar (toLowerCaseByte byte) := by
  have ha : ∀ n < 256, isTokenChar (UInt8.ofNat n) →
      isTokenChar (toLowerCaseByte (UInt8.ofNat n)) = true := by
    decide +kernel
  have hb := ha byte.toNat byte.toNat_lt
  rw [UInt8.ofNat_toNat] at hb
  exact hb h

theorem IsToken.concat {name : Text} (h : name.all isTokenChar)
    (hb : isTokenChar byte) :
    IsToken (name ++ [byte]) :=
  ⟨by simp, by rw [all_append, h, all_cons, hb]; rfl⟩

/-- What a byte does in the fields: it starts a name, goes on with a name or a value, or adds the field
that is complete. -/
theorem fields_cases (hp : p.state.part = .fields) (hen : p.state ≠ .headerEnding)
    (h : parseByte core p byte = .ok (p', again, events)) :
    events = [] ∧
      (p.state = .headerStart ∧ p' = (afterHeader { p with headers := .new p.httpVersion } byte).1 ∨
        (∃ state name value,
          p' = { p with state := state, headerField := name, headerValue := value } ∧
          state.part = .fields ∧ state.noField = false ∧ (Named p → Named p') ∧ fieldAt p byte = []) ∨
        ∃ p₁, p.state = .headerValueFoldOrEnd ∧ ¬(byte = SP ∨ byte = HT) ∧
          addHeader core p = .ok p₁ ∧ p' = (afterHeader p₁ byte).1) := by
  cases hs : p.state <;> simp [hs] at hp hen <;> simp only [parseByte, hs] at h
  case headerStart =>
    cases h
    exact ⟨rfl, .inl ⟨rfl, rfl⟩⟩
  case headerField =>
    obtain ⟨h, -, he⟩ := next_eq_ok h
    simp only [parseHeaderField, fail] at h
    split_ifs at h with hc ht <;> cases h
    · exact ⟨he, .inr (.inl ⟨_, _, _, rfl, rfl, rfl, by simp [Named, hs],
        fieldAt_of_ne (by simp [hs])⟩)⟩
    · refine ⟨he, .inr (.inl ⟨_, _, _, rfl, by simp [hs], by simp [hs], fun hn => ?_,
        fieldAt_of_ne (by simp [hs])⟩)⟩
      simp only [Named, hs] at hn ⊢
      exact .concat hn.2 (isTokenChar_lower (by simpa using ht))
  case headerValueFoldingOrEnding =>
    obtain ⟨h, -, he⟩ := next_eq_ok h
    obtain ⟨-, h⟩ := expect_eq_ok h
    cases h
    exact ⟨he, .inr (.inl ⟨_, _, _, rfl, rfl, rfl, by simp [Named, hs],
      fieldAt_of_ne (by simp [hs])⟩)⟩
  case headerValueFoldOrEnd =>
    split_ifs at h with hb
    · cases h
      exact ⟨rfl, .inr (.inl ⟨_, _, _, rfl, rfl, rfl, by simp [Named, hs], if_neg (by tauto)⟩)⟩
    · obtain ⟨p₁, ha, heq⟩ := map_eq_ok h
      cases heq
      exact ⟨rfl, .inr (.inr ⟨p₁, rfl, hb, ha, rfl⟩)⟩
  all_goals
    cases h
    refine ⟨rfl, .inr (.inl ?_)⟩
    simp only [parseHeaderValueStart, parseHeaderValue]
    split_ifs
    all_goals
      exact ⟨_, _, _, rfl, by simp [hs], by simp [hs], by simp [Named, hs],
        fieldAt_of_ne (by simp [hs])⟩

theorem afterHeader_part (p : Parser) (byte : UInt8) :
    (afterHeader p byte).1.state.part = .fields ∧ (afterHeader p byte).1.state.noField = false ∧
      (afterHeader p byte).1 = { p with
        state := (afterHeader p byte).1.state
        headerField := (afterHeader p byte).1.headerField } := by
  rw [afterHeader]
  split_ifs <;> exact ⟨rfl, rfl, rfl⟩

theorem fields_frame (hp : p.state.part = .fields) (he : p.state ≠ .headerEnding)
    (h : parseByte core p byte = .ok (p', again, events)) :
    p'.state.part = .fields ∧ p'.requestParser = p.requestParser ∧ p'.messageType = p.messageType ∧
      p'.statusCode = p.statusCode ∧ p'.noMessageBody = p.noMessageBody ∧ p'.method = p.method := by
  rcases (fields_cases hp he h).2 with ⟨-, rfl⟩ | ⟨_, _, _, rfl, hp', -⟩ |
    ⟨p₁, -, -, hadd, rfl⟩
  · obtain ⟨hp', -, heq⟩ := afterHeader_part { p with headers := .new p.httpVersion } byte
    refine ⟨hp', ?_⟩
    rw [heq]
    exact ⟨rfl, rfl, rfl, rfl, rfl⟩
  · exact ⟨hp', rfl, rfl, rfl, rfl, rfl⟩
  · obtain ⟨hp', -, heq⟩ := afterHeader_part p₁ byte
    refine ⟨hp', ?_⟩
    obtain ⟨headers, rfl, -⟩ := addHeader_ok hadd
    rw [heq]
    exact ⟨rfl, rfl, rfl, rfl, rfl⟩

end Parts

section Idle

variable {core}

theorem idle_endMessage (h : p.state ≠ .upgraded) : (endMessage p).Idle := by
  rw [Parser.Idle, endMessage, reset, if_neg h]
  rfl

theorem Parser.Idle.setIsHead (h : p.Idle) (value : Bool) : (setIsHead p value).Idle := by
  cases value with
  | false => exact h
  | true =>
    rw [Parser.Idle] at h ⊢
    rw [h]
    rfl

theorem startBody_idle {message : Incoming Uri} (hp : p.state = .headerEnding)
    (h : (startBody p message).1.state = .start) : (startBody p message).1.Idle := by
  unfold startBody at h ⊢
  dsimp only at h ⊢
  split_ifs at h ⊢
  · exact idle_endMessage (by simp [hp])

theorem headersEnd_eq_ok {result : Parser × List (Event Uri)} (h : headersEnd core p = .ok result) :
    ∃ uri, result = startBody p (createIncoming p uri) := by
  rw [headersEnd] at h
  split_ifs at h
  · cases hu : core.parseUri p.uriOrReasonPhrase with
    | none =>
      rw [hu] at h
      cases h
    | some uri =>
      rw [hu] at h
      cases h
      exact ⟨_, rfl⟩
  · cases h
    exact ⟨_, rfl⟩

theorem parseByte_headerEnding (hs : p.state = .headerEnding)
    (h : parseByte core p byte = .ok (p', again, events)) :
    again = false ∧ ∃ uri, p' = (startBody p (createIncoming p uri)).1 ∧
      events = (startBody p (createIncoming p uri)).2 := by
  simp only [parseByte, hs] at h
  obtain ⟨-, h⟩ := expect_eq_ok h
  obtain ⟨_, he, heq⟩ := map_eq_ok h
  obtain ⟨uri, rfl⟩ := headersEnd_eq_ok he
  cases heq
  exact ⟨rfl, uri, rfl, rfl⟩

theorem State.noField_of_part {state : State} (hf : state.part ≠ .fields)
    (hb : state.part ≠ .body) : state.noField ∧ state ≠ .headerStart := by
  cases state <;> simp at hf hb ⊢

theorem parseByte_idle (h : parseByte core p byte = .ok (p', again, events))
    (hs : p'.state = .start) : p'.Idle := by
  by_cases hfields : p.state.part = .fields
  · by_cases hending : p.state = .headerEnding
    · obtain ⟨-, _, rfl, -⟩ := parseByte_headerEnding hending h
      exact startBody_idle hending hs
    · have hp := (fields_frame hfields hending h).1
      rw [hs] at hp
      cases hp
  by_cases hbody : p.state.part = .body
  · cases hst : p.state <;> simp [hst] at hbody <;> simp only [parseByte, hst] at h
    case chunkedBodyDoneLf =>
      obtain ⟨-, h⟩ := expect_eq_ok h
      cases h
      exact idle_endMessage (by simp [hst])
    case chunkSizeExtension =>
      cases h
      split_ifs at hs
      simp [hst] at hs
    case body | closed | upgraded | failure =>
      cases h
      simp [hst] at hs
    case chunkSize =>
      obtain ⟨h, -, -⟩ := next_eq_ok h
      rw [parseChunkSize] at h
      split_ifs at h
      · cases h
        cases hs
      · cases h
        cases hs
      · obtain ⟨_, -, rfl⟩ := map_eq_ok h
        simp [hst] at hs
    all_goals
      obtain ⟨h, -, -⟩ := next_eq_ok h
      simp only [parseChunkSizeEnding, expect, fail] at h
      split_ifs at h <;> cases h <;> simp at hs
  · obtain ⟨hf, hne⟩ := State.noField_of_part hfields hbody
    exact absurd hs (line_frame hf hne h).2.2.1

theorem round_idle (h : (round core p [byte]).1.state = .start) :
    (round core p [byte]).1.Idle := by
  by_cases hbody : p.state = .body
  · rw [round_body hbody] at h ⊢
    have hp : (parseBody p [byte] : Parser × ℕ × List (Event Uri)).1 =
        (endData (takeData p (dataAvailable p 1)) : Parser × List (Event Uri)).1 := by
      rw [parseBody_eq rfl (dataAvailable_le _ _)]
      rfl
    have hs : (takeData p (dataAvailable p 1)).state = .body := hbody
    rw [hp, endData] at h ⊢
    split_ifs at h ⊢
    · exact idle_endMessage (by simp [hs])
    · exact absurd (hs.symm.trans h) (by simp)
  · rw [round_byte hbody] at h ⊢
    cases hb : parseByte core p byte with
    | error e =>
      rw [hb] at h
      cases h
    | ok _ =>
      rw [hb] at h
      exact parseByte_idle hb h

theorem feed_idle (h : (feed core p byte).1.state = .start) : (feed core p byte).1.Idle := by
  unfold feed at h ⊢
  dsimp only at h ⊢
  split_ifs at h ⊢ with hz
  · exact round_idle h
  · exact round_idle h

theorem Reachable.idle (h : Reachable core p) (hs : p.state = .start) : p.Idle := by
  induction h with
  | new _ => rfl
  | feed _ _ _ => exact feed_idle hs
  | setIsHead value _ ih =>
    refine (ih ?_).setIsHead value
    cases value with
    | false | true => exact hs

end Idle

section Reading

def NotStatusLine (head : List UInt8) : Prop := ∀ more, ¬isStatusLine (head ++ more)

def ThreeDigits (head : List UInt8) : Prop :=
  ∃ last rest, (last = SP ∨ last = CR) ∧ Coded 3 head (last :: rest)

def InStatusLine (p : Parser) (head : List UInt8) : Prop :=
  match p.state with
  | .responseHttpVersion => head.length = p.httpVersionIndex ∧ p.statusCodeLength = 0
  | .responseLineStatusCode => Coded p.statusCodeLength head [] ∧ p.statusCodeLength ≤ 3
  | _ => ThreeDigits head

structure Unread (isHead : Bool) (p : Parser) : Prop where
  statusCode : p.statusCode = 0
  statusCodeLength : p.statusCodeLength = 0
  messageType : p.messageType = .response
  noMessageBody : p.noMessageBody = isHead
  method : p.method = []

structure Answer (head : List UInt8) (p : Parser) : Prop where
  head : isStatusLine head
  parser : p.requestParser = false
  messageType : p.messageType = .response

structure Request (clean : Bool) (head : List UInt8) (p : Parser) : Prop where
  head : NotStatusLine head
  statusCode : p.statusCode = 0
  method : clean = true → p.requestParser = true ∧ IsToken p.method

/-- What is known of the start line, and of its form if no byte has slipped. -/
inductive Line (clean isHead : Bool) (head : List UInt8) (p : Parser) : Prop
  | start (hstate : p.state = .start) (hunread : Unread isHead p) (hhead : head = [])
  | version (hstate : p.state = .methodOrResponseHttpVersion) (hunread : Unread isHead p)
    (hhead : head = http.take p.httpVersionIndex)
    (hindex : 1 ≤ p.httpVersionIndex ∧ p.httpVersionIndex ≤ http.length)
  | statusLine (hpart : p.state.part = .statusLine) (hanswer : Answer head p)
    (hflag : p.noMessageBody = isHead) (hclean : clean = true → InStatusLine p head)
  | requestLine (hpart : p.state.part = .requestLine) (hrequest : Request clean head p)
  | response (hpart : p.state.part = .fields) (hanswer : Answer head p)
    (hflag : p.noMessageBody = (isHead || noBody p.statusCode))
    (hclean : clean = true → ThreeDigits head)
  | request (hpart : p.state.part = .fields) (hrequest : Request clean head p)
    (htype : p.messageType = .request)

/-- What is known of the fields, and of their names if no byte has slipped. -/
structure Taken (clean requestParser : Bool) (fields : List (Text × Text)) (p : Parser) : Prop where
  parser : p.requestParser = requestParser
  incoming : p.incoming = false
  remaining : p.remainingContent = -1
  chunked : p.chunked = fields.any isChunked
  upgrade : p.connectionUpgrade = fields.any isUpgrade
  length : p.chunked = false → LengthIs (contentLength core fields) p.headers.contentLength
  none : p.state.noField = true → fields = []
  names : clean = true → Named p ∧ ∀ field ∈ fields, IsToken field.1

variable {core} {clean isHead requestParser : Bool} {head : List UInt8}
  {fields : List (Text × Text)}

theorem ThreeDigits.append (h : ThreeDigits head) (more : List UInt8) :
    ThreeDigits (head ++ more) := by
  obtain ⟨last, rest, hl, version, code, rfl, hc⟩ := h
  exact ⟨last, rest ++ more, hl, version, code, by simp, hc⟩

theorem clean_step : (clean && !slips p byte) = true ↔ clean ∧ slips p byte = false := by simp

theorem Answer.append (h : Answer head p) (more : List UInt8) : Answer (head ++ more) p :=
  { h with head := h.head.trans (prefix_append _ _) }

theorem Request.append (h : Request clean head p) (more : List UInt8) :
    Request clean (head ++ more) p := by
  refine { h with head := fun more' => ?_ }
  rw [append_assoc]
  exact h.head _

theorem Request.step (h : Request clean head p) (byte : UInt8) :
    Request (clean && !slips p byte) (head ++ [byte]) p :=
  { h.append [byte] with method := fun hc => h.method (clean_step.mp hc).1 }

/-- A byte that is not the next one of `HTTP/` ends a method or makes it go on. -/
theorem notStatusLine_of_ne {k : ℕ} (hk : k ≤ http.length) (hne : (text "HTTP/")[k]? ≠ some byte) :
    NotStatusLine (http.take k ++ [byte]) := by
  rintro _ ⟨_, htail⟩
  have hl : (http.take k).length = k := length_take_of_le hk
  have hat := congrArg (fun l => l[k]?) htail
  simp only [append_assoc] at hat
  rw [getElem?_append_left (Nat.lt_succ_of_le hk), getElem?_append_right (by omega),
    hl, Nat.sub_self] at hat
  exact hne hat

theorem code_step (hs : p.state = .responseLineStatusCode)
    (hcd : Coded p.statusCodeLength head [] ∧ p.statusCodeLength ≤ 3)
    (hsl : slips p byte = false) :
    (byte = SP ∨ byte = CR → ThreeDigits (head ++ [byte])) ∧
      (p.statusCodeLength < 3 → Coded (p.statusCodeLength + 1) (head ++ [byte]) []) := by
  obtain ⟨⟨version, code, rfl, hv, hc, ha⟩, hle⟩ := hcd
  have hd (hlt : p.statusCodeLength < 3) : isDigit byte := by
    simpa [slips, allowed, hs, hlt] using hsl
  refine ⟨fun hl => ?_, fun hlt => ?_⟩
  · have ht : p.statusCodeLength = 3 := by
      by_contra hne
      have := hd (by omega)
      rcases hl with rfl | rfl <;> cases this
    exact ⟨byte, [], hl, version, code, by simp, hv, hc.trans ht, ha⟩
  · refine ⟨version, code ++ [byte], by simp, hv, by simp [hc], ?_⟩
    rw [all_append, ha, all_cons, hd hlt]
    rfl

theorem startBody_ne_nil (p : Parser) (message : Incoming Uri) : (startBody p message).2 ≠ [] := by
  unfold startBody
  dsimp only
  split_ifs <;> simp

theorem afterHeader_named (he : p.headerField = [])
    (hb : byte ≠ CR → byte ≠ LF → isTokenChar byte) : Named (afterHeader p byte).1 := by
  rw [afterHeader]
  split_ifs with hcr hlf
  · simpa [Named] using he
  · simpa [Named] using he
  · have ht := isTokenChar_lower (hb hcr hlf)
    simpa [Named, he] using IsToken.concat (all_nil : [].all isTokenChar) ht

section

variable (h : parseByte core p byte = .ok (p', again, []))

include h

theorem start_step (hs : p.state = .start) (hu : Unread isHead p) :
    Line (clean && !slips p byte) isHead [byte] p' := by
  simp only [parseByte, hs] at h
  obtain ⟨h, -, -⟩ := next_eq_ok h
  simp only [parseStart, fail] at h
  split_ifs at h with hb ht hp <;> cases h
  · refine .version rfl { hu with } ?_ ⟨Nat.le_refl 1, Nat.le_add_left 1 3⟩
    rw [hb]
    rfl
  · have hn := notStatusLine_of_ne (Nat.zero_le _) fun h => hb (some.inj h).symm
    refine .requestLine rfl ⟨hn, hu.statusCode, fun _ => ⟨by simpa using hp, ?_⟩⟩
    exact .concat (by rw [hu.method]; rfl) (by simpa using ht)

theorem version_step (hs : p.state = .methodOrResponseHttpVersion) (hu : Unread isHead p)
    (hi : 1 ≤ p.httpVersionIndex ∧ p.httpVersionIndex ≤ http.length) :
    Line (clean && !slips p byte) isHead (http.take p.httpVersionIndex ++ [byte]) p' := by
  simp only [parseByte, hs] at h
  obtain ⟨h, -, -⟩ := next_eq_ok h
  simp only [parseMethodOrResponseHttpVersion, fail] at h
  by_cases hversion : p.httpVersionIndex < http.length ∧ byte = http.getD p.httpVersionIndex 0
  · rw [if_pos hversion] at h
    cases h
    refine .version hs { hu with } ?_ ⟨Nat.le_add_left 1 _, hversion.1⟩
    rw [hversion.2, take_add_one, getD_eq_getElem?_getD, getElem?_eq_getElem hversion.1]
    rfl
  rw [if_neg hversion] at h
  by_cases hslash : p.httpVersionIndex = http.length ∧ byte = SLASH
  · rw [if_pos hslash] at h
    split_ifs at h with hp
    cases h
    refine .statusLine rfl ⟨?_, by simpa using hp, hu.messageType⟩ hu.noMessageBody
      fun _ => ⟨?_, hu.statusCodeLength⟩
    · rw [hslash.1, hslash.2]
      exact ⟨[], rfl⟩
    · rw [length_append, length_take_of_le hi.2]
      rfl
  rw [if_neg hslash] at h
  have hne : (text "HTTP/")[p.httpVersionIndex]? ≠ some byte := by
    intro hn
    rcases Nat.lt_or_eq_of_le hi.2 with hlt | heq
    · have hst : text "HTTP/" = http ++ [SLASH] := by decide
      rw [hst, getElem?_append_left hlt] at hn
      refine hversion ⟨hlt, ?_⟩
      rw [getD_eq_getElem?_getD, hn]
      rfl
    · rw [heq] at hn
      exact hslash ⟨heq, (some.inj hn).symm⟩
  have ht : (p.method ++ http.take p.httpVersionIndex).all isTokenChar := by
    have ha : http.all isTokenChar := by decide
    rw [hu.method]
    exact all_eq_true.mpr fun x hx => all_eq_true.mp ha x (mem_of_mem_take hx)
  have hnt := notStatusLine_of_ne hi.2 hne
  split_ifs at h with hsp hp <;> cases h
  · refine .requestLine rfl ⟨hnt, hu.statusCode, fun hc => ⟨?_, ?_, ht⟩⟩
    · have hsl := (clean_step.mp hc).2
      by_contra hp
      rw [hsp] at hne
      simp [slips, allowed, hs, hp, hsp, hne] at hsl
    · simpa [http, text] using fun _ => Nat.ne_of_gt hi.1
  · have hp : p.requestParser := by simpa using hp
    refine .requestLine rfl ⟨hnt, hu.statusCode, fun hc => ⟨hp, .concat ht ?_⟩⟩
    have hsl := (clean_step.mp hc).2
    simpa [slips, allowed, hs, hp, hslash, hsp] using hsl

theorem statusLine_step (hp : p.state.part = .statusLine) (ha : Answer head p)
    (hf : p.noMessageBody = isHead) (hc : clean → InStatusLine p head) :
    Line (clean && !slips p byte) isHead (head ++ [byte]) p' := by
  have ha' := ha.append [byte]
  have hc (h : (clean && !slips p byte) = true) : InStatusLine p head ∧ slips p byte = false :=
    ⟨hc (clean_step.mp h).1, (clean_step.mp h).2⟩
  unfold InStatusLine at hc
  cases hs : p.state <;> simp [hs] at hp
  all_goals
    rw [hs] at hc
    simp only [parseByte, hs] at h
    obtain ⟨h, -, -⟩ := next_eq_ok h
    simp only [parseResponseHttpVersion, parseResponseLineStatusCode, parseResponseLineReasonPhrase,
      parseResponseLineEnding, expect, fail] at h
  case responseHttpVersion =>
    have hk (h : (clean && !slips p byte) = true) :
        (head ++ [byte]).length = p.httpVersionIndex + 1 ∧ p.statusCodeLength = 0 := by
      rw [length_append, (hc h).1.1]
      exact ⟨rfl, (hc h).1.2⟩
    split_ifs at h with _ _ _ _ hls <;> cases h
    iterate 3
      exact .statusLine (by simp [hs]) { ha' with } hf
        (by simpa only [InStatusLine, hs] using hk)
    refine .statusLine rfl { ha' with } hf fun h => ?_
    obtain ⟨hl, hz⟩ := hk h
    rw [hls] at hl
    exact ⟨⟨head ++ [byte], [], by simp, hl, hz.symm, rfl⟩, by simp [hz]⟩
  case responseLineStatusCode =>
    split_ifs at h with hsp hcr he <;> cases h
    · exact .statusLine rfl { ha' with } hf fun h =>
        (code_step hs (hc h).1 (hc h).2).1 (.inl hsp)
    · exact .statusLine rfl { ha' with } hf fun h =>
        (code_step hs (hc h).1 (hc h).2).1 (.inr hcr)
    · have hlt : p.statusCodeLength < 3 := by omega
      refine .statusLine (by simp [hs]) { ha' with } hf fun h => ?_
      simp only [InStatusLine, hs]
      exact ⟨(code_step hs (hc h).1 (hc h).2).2 hlt, hlt⟩
  case responseLineReasonPhrase =>
    split_ifs at h <;> cases h
    all_goals
      refine .statusLine (by simp [hs]) { ha' with } hf fun h => ?_
      simp only [InStatusLine, hs]
      exact (hc h).1.append [byte]
  case responseLineEnding =>
    split_ifs at h with hby hr hn <;> cases h
    · have hb : noBody p.statusCode := by
        simp only [noBody, decide_eq_true_eq]
        omega
      exact .response rfl { ha' with } (by simp [hb]) fun h => (hc h).1.append [byte]
    · have hb : noBody p.statusCode = false := by
        simp only [noBody, decide_eq_false_iff_not]
        omega
      exact .response rfl { ha' with } (by simp [hb, hf]) fun h =>
        (hc h).1.append [byte]

theorem requestLine_step (hpr : p.state.part = .requestLine) (hr : Request clean head p) :
    Line (clean && !slips p byte) isHead (head ++ [byte]) p' := by
  have hr' := hr.step byte
  cases hs : p.state <;> simp [hs] at hpr
  all_goals
    simp only [parseByte, hs] at h
    obtain ⟨h, -, -⟩ := next_eq_ok h
    simp only [parseRequestLineMethod, parseRequestLineUri, parseRequestLineHttpVersion, expect,
      fail] at h
  case requestLineMethod =>
    split_ifs at h with hsc hsp <;> cases h
    · exact .requestLine rfl { hr' with }
    refine .requestLine (by simp [hs]) { hr' with method := fun hc => ?_ }
    have hsl := (clean_step.mp hc).2
    obtain ⟨hp, hm⟩ := hr'.method hc
    exact ⟨hp, .concat hm.2
      (by simpa [slips, allowed, hs, hsc, hsp] using hsl)⟩
  all_goals
    split_ifs at h <;> cases h
    all_goals first
      | exact .request rfl { hr' with } rfl
      | exact .requestLine (by simp [hs]) { hr' with }

theorem silent_ne_headerEnding : p.state ≠ .headerEnding := by
  intro hs
  obtain ⟨-, _, -, heq⟩ := parseByte_headerEnding hs h
  exact startBody_ne_nil _ _ heq.symm

theorem line_step (hl : Line clean isHead head p) :
    Line (clean && !slips p byte) isHead (head ++ [byte]) p' := by
  cases hl with
  | start hst hu hh =>
    rw [hh]
    exact start_step h hst hu
  | version hst hu hh hi =>
    rw [hh]
    exact version_step h hst hu hi
  | statusLine hp ha hf hc => exact statusLine_step h hp ha hf hc
  | requestLine hp hr => exact requestLine_step h hp hr
  | response hp ha hf hc =>
    obtain ⟨hp', hpr', ht', hs', hf', -⟩ :=
      fields_frame hp (silent_ne_headerEnding h) h
    refine .response hp' ⟨(ha.append [byte]).head, hpr'.trans ha.parser,
      ht'.trans ha.messageType⟩ ?_ fun h => (hc (clean_step.mp h).1).append _
    rw [hf', hf, hs']
  | request hp hr ht =>
    obtain ⟨hp', hpr', ht', hs', -, hm'⟩ :=
      fields_frame hp (silent_ne_headerEnding h) h
    refine .request hp' ⟨(hr.append [byte]).head, hs'.trans hr.statusCode,
      fun h => ?_⟩ (ht'.trans ht)
    rw [hpr', hm']
    exact hr.method (clean_step.mp h).1

theorem taken_step (ht : Taken core clean requestParser fields p) (hp : p.state.part ≠ .body) :
    Taken core (clean && !slips p byte) requestParser (fields ++ fieldAt p byte) p' := by
  have hnm (hc : (clean && !slips p byte) = true) := ht.names (clean_step.mp hc).1
  by_cases hfl : p.state.part = .fields
  · rcases (fields_cases hfl (silent_ne_headerEnding h) h).2 with
      ⟨hs, rfl⟩ | ⟨state, _, _, rfl, -, hf, hn, hnn⟩ | ⟨p₁, hs, hblank, hadd, rfl⟩
    · have hnn : fields = [] := ht.none (by rw [hs]; rfl)
      obtain ⟨-, hf, heq⟩ := afterHeader_part { p with headers := .new p.httpVersion } byte
      have hn (hc : (clean && !slips p byte) = true) :
          Named (afterHeader { p with headers := .new p.httpVersion } byte).1 := by
        refine afterHeader_named ?_ ?_
        · simpa [Named, hs] using (hnm hc).1
        · simpa [slips, allowed, hs] using (clean_step.mp hc).2
      rw [fieldAt_of_ne (by simp [hs]), append_nil]
      rw [heq] at hn hf ⊢
      refine { ht with
        length := fun _ => ?_
        none := fun h => absurd (hf.symm.trans h) (by simp)
        names := fun hc => ⟨hn hc, (hnm hc).2⟩ }
      rw [hnn]
      rfl
    · rw [hnn, append_nil]
      exact { ht with
        none := fun h => absurd (hf.symm.trans h) (by simp)
        names := fun hc => ⟨hn (hnm hc).1, (hnm hc).2⟩ }
    · obtain ⟨headers, rfl, hl⟩ := addHeader_ok hadd
      obtain ⟨-, hf, heq⟩ := afterHeader_part (withField p headers) byte
      have hn (hc : (clean && !slips p byte) = true) :
          Named (afterHeader (withField p headers) byte).1 := by
        refine afterHeader_named rfl ?_
        rw [not_or] at hblank
        simpa [slips, allowed, hs, hblank] using (clean_step.mp hc).2
      rw [fieldAt, if_pos (by tauto)]
      rw [heq] at hn hf ⊢
      refine { ht with
        chunked := ?_
        upgrade := ?_
        length := fun h => ?_
        none := fun h => absurd (hf.symm.trans h) (by simp)
        names := fun hc => ⟨hn hc, ?_⟩ }
      · rw [any_append, ← ht.chunked]
        simp
      · rw [any_append, ← ht.upgrade]
        simp
      · obtain ⟨hfs, hch⟩ := Bool.or_eq_false_iff.mp h
        exact hl hch fields (ht.length hfs)
      · obtain ⟨hna, htk⟩ := hnm hc
        intro field hf
        rcases mem_append.mp hf with hf | hf
        · exact htk field hf
        · rw [mem_singleton.mp hf]
          simpa [Named, hs] using hna
  · obtain ⟨hf, hne⟩ := State.noField_of_part hfl hp
    obtain ⟨-, hf', -, heq⟩ := line_frame hf hne h
    rw [fieldAt_of_ne (by rintro hs; simp [hs] at hfl), append_nil]
    rw [heq]
    refine { ht with
      none := fun _ => ht.none hf
      names := fun hc => ⟨?_, (hnm hc).2⟩ }
    have hn := (hnm hc).1
    rw [Named, if_pos (.inl hf)] at hn
    exact (if_pos (.inl hf')).mpr hn

end

theorem feed_of_taken (hb : p.state ≠ .body)
    (h : parseByte core p byte = .ok (p', false, events)) : feed core p byte = (p', events) := by
  refine feed_of_round ?_ Nat.one_ne_zero
  rw [round_byte hb, h]
  rfl

theorem feed_of_error {e : ParseError} (hb : p.state ≠ .body)
    (h : parseByte core p byte = .error e) :
    feed core p byte = ({ p with state := .failure }, [.error e, .done]) := by
  refine feed_of_round ?_ Nat.one_ne_zero
  rw [round_byte hb, h]
  rfl

/-- A byte that is read again does what it does at the end of the headers. -/
theorem feed_of_again (hb : p.state ≠ .body)
    (h : parseByte core p byte = .ok (p', true, events)) :
    feed core p byte = ((feed core p' byte).1, events ++ (feed core p' byte).2) := by
  have ht : p'.takes := .inl (parseByte_again h)
  have ho : (round core p' [byte]).2.1 = 1 := ht.round byte []
  have hf : feed core p' byte = ((round core p' [byte]).1, (round core p' [byte]).2.2) :=
    feed_of_round rfl (fun h => absurd (ho.symm.trans h) Nat.one_ne_zero)
  rw [hf, feed, round_byte hb, h]
  rfl

theorem parseByte_events (hb : p.state.part ≠ .body)
    (he : p.state ≠ .headerEnding) (h : parseByte core p byte = .ok (p', again, events)) :
    events = [] := by
  by_cases hfields : p.state.part = .fields
  · exact (fields_cases hfields he h).1
  · obtain ⟨hf, hne⟩ := State.noField_of_part hfields hb
    exact (line_frame hf hne h).1

theorem reported_startBody (p : Parser) (message : Incoming Uri) :
    reported (startBody p message).2 = some message := by
  unfold startBody
  dsimp only
  split_ifs <;> rfl

theorem feed_headerEnding (hs : p.state = .headerEnding) :
    (∃ e, feed core p byte = ({ p with state := .failure }, [.error e, .done])) ∨
      ∃ uri, feed core p byte = startBody p (createIncoming p uri) := by
  have hbd : p.state ≠ .body := by simp [hs]
  cases hb : parseByte core p byte with
  | error e => exact .inl ⟨e, feed_of_error hbd hb⟩
  | ok result =>
    obtain ⟨_, _, _⟩ := result
    obtain ⟨rfl, uri, rfl, rfl⟩ := parseByte_headerEnding hs hb
    exact .inr ⟨uri, feed_of_taken hbd hb⟩

theorem feed_silent (hp : p.state.part ≠ .body) (h : (feed core p byte).2 = []) :
    parseByte core p byte = .ok ((feed core p byte).1, false, []) := by
  have hbd : p.state ≠ .body := fun hs => hp (by rw [hs]; rfl)
  cases hb : parseByte core p byte with
  | error e =>
    rw [feed_of_error hbd hb] at h
    cases h
  | ok result =>
    obtain ⟨_, again, events⟩ := result
    cases again with
    | false =>
      rw [feed_of_taken hbd hb] at h ⊢
      rw [show events = [] from h]
    | true =>
      rw [feed_of_again hbd hb, append_eq_nil_iff] at h
      rcases feed_headerEnding (parseByte_again hb) with
        ⟨e, heq⟩ | ⟨uri, heq⟩
      · rw [heq] at h
        cases h.2
      · rw [heq] at h
        exact absurd h.2 (startBody_ne_nil _ _)

/-- The byte that reports the message: it ends the headers, when all of them are known. -/
theorem feed_reported {message : Incoming Uri} (hp : p.state.part ≠ .body)
    (h : reported (feed core p byte).2 = some message) :
    ∃ q, (q = p ∨ parseByte core p byte = .ok (q, true, [])) ∧ q.state = .headerEnding ∧
      (∃ uri, message = createIncoming q uri) ∧ feed core p byte = startBody q message := by
  have hbd : p.state ≠ .body := fun hs => hp (by rw [hs]; rfl)
  have he (q : Parser) (hs : q.state = .headerEnding)
      (hq : reported (feed core q byte).2 = some message) :
      (∃ uri, message = createIncoming q uri) ∧ feed core q byte = startBody q message := by
    rcases feed_headerEnding hs with ⟨e, heq⟩ | ⟨uri, heq⟩
    · rw [heq] at hq
      cases hq
    · rw [heq, reported_startBody, some.injEq] at hq
      subst hq
      exact ⟨⟨uri, rfl⟩, heq⟩
  by_cases hending : p.state = .headerEnding
  · exact ⟨p, .inl rfl, hending, he p hending h⟩
  cases hb : parseByte core p byte with
  | error e =>
    rw [feed_of_error hbd hb] at h
    cases h
  | ok result =>
    obtain ⟨q, again, _⟩ := result
    obtain rfl := parseByte_events hp hending hb
    cases again with
    | false =>
      rw [feed_of_taken hbd hb] at h
      cases h
    | true =>
      rw [feed_of_again hbd hb] at h ⊢
      exact ⟨q, .inr rfl, parseByte_again hb, he q (parseByte_again hb) h⟩

theorem Line.part_ne_body (h : Line clean isHead head p) : p.state.part ≠ .body := by
  cases h <;> simp_all

theorem Line.append (h : Line clean isHead head p) (hs : p.state = .headerEnding)
    (more : List UInt8) : Line clean isHead (head ++ more) p := by
  have hp : p.state.part = .fields := by rw [hs]; rfl
  cases h with
  | response _ ha hf hc =>
    exact .response hp (ha.append more) hf fun h => (hc h).append more
  | request _ hr ht => exact .request hp (hr.append more) ht
  | _ => simp_all

theorem meaning_feed (hp : p.state.part ≠ .body) (rest : List UInt8) :
    meaning core p (byte :: rest) =
      observe (feed core p byte).2 ++ meaning core (feed core p byte).1 rest := by
  have hs : p.stopped = false := by
    cases hst : p.state <;> simp [hst, Parser.stopped] at hp ⊢
  rw [meaning, if_neg (by simp [hs])]

/-- **What is known at the end of a head**, where the message is reported. -/
theorem readHead_spec {before : List UInt8} {fields₀ : List (Text × Text)} {message : Incoming Uri}
    (hl : Line clean isHead before p) (ht : Taken core clean requestParser fields₀ p)
    (h : readHead core p fields₀ head = some (fields, message)) :
    ∃ q, Line (noSlip core clean p head) isHead (before ++ head) q ∧
      Taken core (noSlip core clean p head) requestParser fields q ∧
      q.state = .headerEnding ∧ (∃ uri, message = createIncoming q uri) ∧
      ∀ rest, meaning core p (head ++ rest) =
        observe (startBody q message).2 ++ meaning core (startBody q message).1 rest := by
  induction head generalizing p before fields₀ clean with
  | nil => cases h
  | cons byte head ih =>
    rw [readHead] at h
    have hpr := hl.part_ne_body
    split_ifs at h with hsl hls
    · have hp := feed_silent hpr (List.isEmpty_iff.mp hsl)
      obtain ⟨q, hq, ht', hs, hu, hm⟩ :=
        ih (line_step hp hl) (taken_step hp ht hpr) h
      rw [append_assoc, singleton_append] at hq
      refine ⟨q, hq, ht', hs, hu, fun rest => ?_⟩
      rw [cons_append, meaning_feed hpr, List.isEmpty_iff.mp hsl, hm]
      rfl
    · obtain rfl := List.isEmpty_iff.mp hls
      obtain ⟨m, hr, heq⟩ := map_eq_some_iff.mp h
      cases heq
      obtain ⟨q, hq, hs, hu, hf⟩ := feed_reported hpr hr
      have he (hs : p.state = .headerEnding) : noSlip core clean p [byte] = clean := by
        simp [noSlip, slips, hs]
      refine ⟨q, ?_, ?_, hs, hu, fun rest => ?_⟩
      · rcases hq with rfl | hp
        · rw [he hs]
          exact hl.append hs _
        · exact line_step hp hl
      · rcases hq with rfl | hp
        · rw [fieldAt_of_ne (by simp [hs]), append_nil, he hs]
          exact ht
        · exact taken_step hp ht hpr
      · rw [singleton_append, meaning_feed hpr, hf]

theorem Parser.Idle.line (h : p.Idle) : Line true p.noMessageBody [] p := by
  rw [h]
  exact .start rfl ⟨rfl, rfl, rfl, rfl, rfl⟩ rfl

theorem Parser.Idle.taken (h : p.Idle) : Taken core true p.requestParser [] p := by
  rw [h]
  exact ⟨rfl, rfl, rfl, rfl, rfl, fun _ => rfl, fun _ => rfl, fun _ => ⟨rfl, nofun⟩⟩

end Reading

end DartSdk.Io.HttpParser
