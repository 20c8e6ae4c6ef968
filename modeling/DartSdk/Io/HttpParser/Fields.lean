import DartSdk.Io.HttpParser.Head
import Mathlib.Data.List.DropRight

/-!
# The lines of a head

What a head says, by its bytes: its first line is the start line, and each line after it is a field or,
if it starts with a blank, goes on with the value of the field before it.  A line ends with LF, and the
CR before it does not count.

* `fieldsOf`, `statusCode`: the fields and the status code, where a line break in a value counts as a
  space;
* `runTogether`: the fields with nothing in the place of the line breaks;
* `scan_step`: a byte that the parser takes keeps its buffers in step with the lines;
* `readHead_fields`: **the fields that the parser reads are those with their lines run together**, and its
  status code is the one of the status line, if the head has a start line.
-/

namespace DartSdk.Io.HttpParser

open List

section Lines

def isBlank (byte : UInt8) : Bool := byte = SP || byte = HT

def trim (value : Text) : Text := (value.dropWhile isBlank).rdropWhile isBlank

def addByte (lines : List Text × Text) (byte : UInt8) : List Text × Text :=
  if byte = LF then (lines.1 ++ [lines.2], []) else (lines.1, lines.2 ++ [byte])

/-- The lines of a text, and what comes after the last of them. -/
def splitLines (bytes : List UInt8) : List Text × Text := bytes.foldl addByte ([], [])

def stripCr (line : Text) : Text := if line.getLast? = some CR then line.dropLast else line

/-- The name of a field and its value, as far as it is on the first line.  The name is not empty. -/
def fieldOf (line : Text) : Text × List Text :=
  let name := line.take 1 ++ (line.drop 1).takeWhile (· ≠ COLON)
  (name.map toLowerCaseByte, [(line.drop (name.length + 1)).dropWhile isBlank])

/-- One more line, where the last field comes first.  An empty line ends the head. -/
def addLine (fields : List (Text × List Text)) (line : Text) : List (Text × List Text) :=
  match line, fields with
  | [], _ => fields
  | _ :: _, [] => [fieldOf line]
  | byte :: rest, (name, values) :: before =>
    if isBlank byte then (name, values ++ [rest.dropWhile isBlank]) :: before
    else fieldOf line :: fields

/-- The names of the fields, with the lines of their values. -/
def fieldLines (head : List UInt8) : List (Text × List Text) :=
  (((splitLines head).1.tail.map stripCr).foldl addLine []).reverse

def fieldsOf (head : List UInt8) : List (Text × Text) :=
  (fieldLines head).map fun field => (field.1, trim (field.2.flatMap (SP :: ·)))

/-- The fields, with nothing in the place of the line breaks in their values. -/
def runTogether (head : List UInt8) : List (Text × Text) :=
  (fieldLines head).map fun field => (field.1, field.2.flatten)

def startLine (head : List UInt8) : Text := (splitLines head).1.headD []

def number (digits : Text) : ℤ := digits.foldl (fun n digit => n * 10 + digit.toNat - 0x30) 0

/-- What stands in a status line where the status code should be. -/
def codeOf (line : Text) : Text :=
  (line.dropWhile (· ≠ SP)).tail.takeWhile fun byte => byte ≠ SP && byte ≠ CR

def statusCode (head : List UInt8) : Option ℤ :=
  if (codeOf (startLine head)).length = 3 ∧ (codeOf (startLine head)).all isDigit then
    some (number (codeOf (startLine head)))
  else none

/-- The first line has a space, and a status line has a status code. -/
def HasStartLine (head : List UInt8) : Prop :=
  SP ∈ startLine head ∧ (isStatusLine head → (statusCode head).isSome)

instance (head : List UInt8) : Decidable (HasStartLine head) :=
  inferInstanceAs (Decidable (_ ∧ (text "HTTP/" <+: head → _)))

end Lines

variable {Uri : Type} {core : Core Uri} {p p' p₁ : Parser} {byte : UInt8} {again : Bool}
  {head : List UInt8} {fields : List (Text × Text)}

section Splitting

theorem splitLines_concat (bytes : List UInt8) (byte : UInt8) :
    splitLines (bytes ++ [byte]) = addByte (splitLines bytes) byte := by
  rw [splitLines, foldl_append]
  rfl

theorem splitLines_of_notMem (h : LF ∉ head) : splitLines head = ([], head) := by
  induction head using reverseRecOn with
  | nil => rfl
  | append_singleton bytes byte ih =>
    rw [mem_append, not_or, mem_singleton] at h
    rw [splitLines_concat, ih h.1, addByte, if_neg (Ne.symm h.2)]

/-- A head whose first line is complete, and is no start line. -/
def Broken (head : List UInt8) : Prop := (splitLines head).1 ≠ [] ∧ ¬HasStartLine head

theorem startLine_concat (h : (splitLines head).1 ≠ []) (byte : UInt8) :
    (splitLines (head ++ [byte])).1 ≠ [] ∧ startLine (head ++ [byte]) = startLine head := by
  rw [startLine, startLine, splitLines_concat, addByte]
  split_ifs
  · cases hs : (splitLines head).1 with
    | nil => exact absurd hs h
    | cons line lines => exact ⟨by simp, rfl⟩
  · exact ⟨h, rfl⟩

theorem Broken.concat (h : Broken head) (byte : UInt8) : Broken (head ++ [byte]) := by
  obtain ⟨hne, hs⟩ := startLine_concat h.1 byte
  refine ⟨hne, fun hg => h.2 ?_⟩
  rw [HasStartLine, statusCode, hs] at hg
  exact ⟨hg.1, fun hl => hg.2 (hl.trans (prefix_append _ _))⟩

theorem isStatusLine_of_concat (h : (splitLines head).1 ≠ []) (hl : isStatusLine (head ++ [byte])) :
    isStatusLine head := by
  refine (prefix_concat_iff.mp hl).resolve_left fun he => h ?_
  have hn : LF ∉ head ++ [byte] := he ▸ by decide
  rw [splitLines_of_notMem fun hm => hn (mem_append_left _ hm)]

theorem codeOf_eq {version code more : Text} (hv : SP ∉ version) (hc : SP ∉ code ∧ CR ∉ code)
    (hm : ∀ b ∈ more.head?, b = SP ∨ b = CR) : codeOf (version ++ SP :: (code ++ more)) = code := by
  have hd : (version ++ SP :: (code ++ more)).dropWhile (· ≠ SP) = SP :: (code ++ more) := by
    rw [dropWhile_append_of_pos fun b hb => by simpa using ne_of_mem_of_not_mem hb hv]
    rfl
  have ht : more.takeWhile (fun b => b ≠ SP && b ≠ CR) = [] := by
    cases more with
    | nil => rfl
    | cons b more => rcases hm b rfl with rfl | rfl <;> rfl
  rw [codeOf, hd, tail_cons, takeWhile_append_of_pos, ht, append_nil]
  intro b hb
  simp [ne_of_mem_of_not_mem hb hc.1, ne_of_mem_of_not_mem hb hc.2]

end Splitting

section Scan

def joined (raw : List (Text × List Text)) : List (Text × Text) :=
  raw.reverse.map fun field => (field.1, field.2.flatten)

/-- In the status line a version, a space and the code have been read, and `more` after them. -/
def AfterVersion (p : Parser) (head code more : Text) : Prop :=
  p.statusCode = number code ∧ (SP ∉ code ∧ CR ∉ code) ∧
    ∃ version, SP ∉ version ∧ head = version ++ SP :: (code ++ more)

def InLine (p : Parser) (head : List UInt8) : Prop :=
  match p.state with
  | .responseHttpVersion => SP ∉ head ∧ p.statusCode = 0 ∧ p.statusCodeLength = 0
  | .responseLineStatusCode => ∃ code, AfterVersion p head code [] ∧ code.length = p.statusCodeLength
  | .responseLineReasonPhrase | .responseLineEnding =>
    ∃ code last more, AfterVersion p head code (last :: more) ∧ (last = SP ∨ last = CR)
  | _ => True

/-- The line has opened a value, and `value` has come since. -/
def InValue (p : Parser) (fields : List (Text × Text)) (raw : List (Text × List Text))
    (line value : Text) : Prop :=
  ∃ opening before, line = opening ++ value ∧ CR ∉ line ∧
    p.headerValue = before ++ value.dropWhile isBlank ∧
    ∀ t, joined (addLine raw (opening ++ t)) =
      fields ++ [(p.headerField, before ++ t.dropWhile isBlank)]

/-- What has been read of the fields: those of the complete lines, and the current line. -/
def InFields (p : Parser) (fields : List (Text × Text)) (raw : List (Text × List Text))
    (line : Text) : Prop :=
  match p.state with
  | .headerStart => line = [] ∧ raw = [] ∧ fields = [] ∧ p.headerField = [] ∧ p.headerValue = []
  | .headerField => ∃ first rest, line = first :: rest ∧ COLON ∉ rest ∧ CR ∉ line ∧
      (raw = [] ∨ isBlank first = false) ∧ p.headerField = line.map toLowerCaseByte ∧
      p.headerValue = [] ∧ fields = joined raw
  | .headerValueStart => ∃ value, InValue p fields raw line value ∧ value.dropWhile isBlank = []
  | .headerValue => ∃ value, InValue p fields raw line value ∧ value.dropWhile isBlank ≠ []
  | .headerValueFoldingOrEnding => ∃ text value, line = text ++ [CR] ∧ InValue p fields raw text value
  | .headerValueFoldOrEnd => line = [] ∧ joined raw = fields ++ [(p.headerField, p.headerValue)]
  | .headerEnding => (line = [] ∨ line = [CR]) ∧ fields = joined raw
  | _ => False

def Empty (p : Parser) : Prop := p.headerField = [] ∧ p.headerValue = []

/-- The buffers of the parser are in step with the lines, or the head has no start line. -/
inductive Scan (head : List UInt8) (fields : List (Text × Text)) (p : Parser) : Prop
  | broken (h : Broken head)
  | line (hn : LF ∉ head) (hl : InLine p head) (hf : fields = []) (hp : p.state.part ≠ .fields)
    (hb : Empty p)
  | fields (start : Text) (lines : List Text) (line : Text)
    (hs : splitLines head = (start :: lines, line))
    (hc : isStatusLine head → p.statusCode = number (codeOf start))
    (hi : InFields p fields ((lines.map stripCr).foldl addLine []) line)

theorem notMem_concat {x y : UInt8} (h : x ∉ head) (hy : y ≠ x) : x ∉ head ++ [y] := by
  simp [h, Ne.symm hy]

theorem stripCr_of_notMem {line : Text} (h : CR ∉ line) : stripCr line = line :=
  if_neg fun hl => h (mem_of_getLast? hl)

theorem stripCr_concat (line : Text) : stripCr (line ++ [CR]) = line := by
  simp [stripCr]

theorem number_concat (digits : Text) (digit : UInt8) :
    number (digits ++ [digit]) = number digits * 10 + digit.toNat - 0x30 := by
  rw [number, foldl_append]
  rfl

/-- The end of the start line. -/
theorem scan_start (hn : LF ∉ head) (hp : p.state = .headerStart) (hb : Empty p)
    (hc : isStatusLine (head ++ [LF]) → p.statusCode = number (codeOf head)) :
    Scan (head ++ [LF]) [] p := by
  refine .fields head [] [] ?_ hc ?_
  · rw [splitLines_concat, splitLines_of_notMem hn]
    rfl
  · rw [InFields, hp]
    exact ⟨rfl, rfl, rfl, hb⟩

theorem broken_of (hn : LF ∉ head) (h : SP ∉ head ∨ isStatusLine head ∧ (codeOf head).length < 3) :
    Broken (head ++ [LF]) := by
  have hs : splitLines (head ++ [LF]) = ([head], []) := by
    rw [splitLines_concat, splitLines_of_notMem hn]
    rfl
  have hl : startLine (head ++ [LF]) = head := by rw [startLine, hs]; rfl
  refine ⟨by simp [hs], fun hg => ?_⟩
  rw [HasStartLine, statusCode, hl] at hg
  rcases h with h | ⟨h, hlt⟩
  · exact h hg.1
  · have hsm := hg.2 (h.trans (prefix_append _ _))
    rw [if_neg fun hcd => Nat.ne_of_lt hlt hcd.1] at hsm
    cases hsm

variable {clean isHead : Bool}

theorem AfterVersion.concat {code more : Text} (h : AfterVersion p head code more) (byte : UInt8) :
    AfterVersion p (head ++ [byte]) code (more ++ [byte]) := by
  obtain ⟨hs, hc, version, hv, rfl⟩ := h
  exact ⟨hs, hc, version, hv, by simp⟩

theorem AfterVersion.codeOf {code more : Text} (h : AfterVersion p head code more)
    (hm : ∀ b ∈ more.head?, b = SP ∨ b = CR) : codeOf head = code := by
  obtain ⟨-, hc, version, hv, rfl⟩ := h
  exact codeOf_eq hv hc hm

section

variable (h : parseByte core p byte = .ok (p', again, []))

include h

theorem scan_start_step (hst : p.state = .start) (hb : Empty p) :
    Scan [byte] [] p' := by
  simp only [parseByte, hst] at h
  obtain ⟨h, -, -⟩ := next_eq_ok h
  simp only [parseStart, fail] at h
  split_ifs at h with hf ht <;> cases h
  · exact .line (by rw [hf]; decide) trivial rfl (by simp) hb
  · refine .line ?_ trivial rfl (by simp) hb
    rw [mem_singleton]
    rintro rfl
    exact ht (by decide)

theorem scan_version_step (hst : p.state = .methodOrResponseHttpVersion) (hu : Unread isHead p)
    (hb : Empty p) : Scan (http.take p.httpVersionIndex ++ [byte]) [] p' := by
  have hsb {b : UInt8} (hm : b ∈ http.take p.httpVersionIndex) : b ∈ http := mem_of_mem_take hm
  have hlf : LF ∉ http.take p.httpVersionIndex := fun hm => absurd (hsb hm) (by decide)
  have hsp : SP ∉ http.take p.httpVersionIndex := fun hm => absurd (hsb hm) (by decide)
  have hh : ∀ k < http.length, http.getD k 0 ≠ LF := by decide
  simp only [parseByte, hst] at h
  obtain ⟨h, -, -⟩ := next_eq_ok h
  simp only [parseMethodOrResponseHttpVersion, fail] at h
  split_ifs at h with hv hs hr hby hr <;> cases h
  · exact .line (notMem_concat hlf (hv.2 ▸ hh _ hv.1)) (by simp [InLine, hst]) rfl
      (by simp [hst]) hb
  · rw [hs.2]
    exact .line (notMem_concat hlf (by decide))
      ⟨notMem_concat hsp (by decide), hu.statusCode, hu.statusCodeLength⟩ rfl (by simp) hb
  · exact .line (notMem_concat hlf (by rw [hby]; decide)) trivial rfl (by simp) hb
  · by_cases hby : byte = LF
    · exact .broken (hby ▸ broken_of hlf (.inl hsp))
    · exact .line (notMem_concat hlf hby) trivial rfl (by simp) hb

theorem scan_statusLine_step (hpr : p.state.part = .statusLine) (ha : Answer head p)
    (hn : LF ∉ head) (hl : InLine p head) (hb : Empty p) : Scan (head ++ [byte]) [] p' := by
  unfold InLine at hl
  cases hst : p.state <;> simp [hst] at hpr
  all_goals
    simp only [parseByte, hst] at h hl
    obtain ⟨h, -, -⟩ := next_eq_ok h
    simp only [parseResponseHttpVersion, parseResponseLineStatusCode, parseResponseLineReasonPhrase,
      parseResponseLineEnding, expect, fail] at h
  case responseHttpVersion =>
    obtain ⟨hsp, hcd, hln⟩ := hl
    have hh : ∀ k < http1dot.length, http1dot.getD k 0 ≠ LF ∧ http1dot.getD k 0 ≠ SP := by decide
    have hsy (q : Parser) (hq : q.state = .responseHttpVersion)
        (hc : q.statusCode = p.statusCode ∧ q.statusCodeLength = p.statusCodeLength) (hqb : Empty q)
        (hby : byte ≠ LF ∧ byte ≠ SP) : Scan (head ++ [byte]) [] q := by
      refine .line (notMem_concat hn hby.1) ?_ rfl (by simp [hq]) hqb
      simp only [InLine, hq, hc, hcd, hln]
      exact ⟨notMem_concat hsp hby.2, trivial, trivial⟩
    split_ifs at h with hlt hby ho hz hen hby <;> cases h
    · exact hsy _ hst ⟨rfl, rfl⟩ hb (of_not_not hby ▸ hh _ hlt)
    · exact hsy _ hst ⟨rfl, rfl⟩ hb (ho.2 ▸ by decide)
    · exact hsy _ hst ⟨rfl, rfl⟩ hb (hz.2 ▸ by decide)
    · rw [of_not_not hby]
      refine .line (notMem_concat hn (by decide)) ?_ rfl (by simp) hb
      exact ⟨[], ⟨hcd, ⟨by simp, by simp⟩, head, hsp, rfl⟩, hln.symm⟩
  case responseLineStatusCode =>
    obtain ⟨code, haf, hln⟩ := hl
    split_ifs at h with hsp hcr her <;> cases h
    · rw [hsp]
      exact .line (notMem_concat hn (by decide)) ⟨code, SP, [], haf.concat SP, .inl rfl⟩ rfl (by simp) hb
    · rw [hcr]
      exact .line (notMem_concat hn (by decide)) ⟨code, CR, [], haf.concat CR, .inr rfl⟩ rfl (by simp) hb
    by_cases hby : byte = LF
    · have hcd := haf.codeOf (by simp)
      exact .broken (hby ▸ broken_of hn (.inr ⟨ha.head, by rw [hcd]; omega⟩))
    refine .line (notMem_concat hn hby) ?_ rfl (by simp [hst]) hb
    obtain ⟨hs, hc, version, hv, rfl⟩ := haf
    simp only [InLine, hst]
    refine ⟨code ++ [byte], ⟨?_, ⟨notMem_concat hc.1 hsp, notMem_concat hc.2 hcr⟩, version, hv, by simp⟩, ?_⟩
    · rw [number_concat, ← hs]
    · rw [length_append, hln]
      rfl
  case responseLineReasonPhrase =>
    obtain ⟨code, last, more, haf, hls⟩ := hl
    split_ifs at h with hcr hlf <;> cases h
    · rw [hcr]
      exact .line (notMem_concat hn (by decide)) ⟨code, last, more ++ [CR], haf.concat CR, hls⟩ rfl
        (by simp) hb
    · refine .line (notMem_concat hn fun he => hlf (.inr he)) ?_ rfl (by simp [hst]) hb
      simp only [InLine, hst]
      exact ⟨code, last, more ++ [byte], haf.concat byte, hls⟩
  case responseLineEnding =>
    obtain ⟨code, last, more, haf, hls⟩ := hl
    have hcd : p.statusCode = number (codeOf head) := by
      rw [haf.codeOf (by simpa using hls)]
      exact haf.1
    split_ifs at h with hby hr hnn <;> cases h
    · rw [of_not_not hby]
      exact scan_start hn rfl hb fun _ => hcd
    · rw [of_not_not hby]
      exact scan_start hn rfl hb fun _ => hcd

theorem scan_requestLine_step (hpr : p.state.part = .requestLine) (hr : NotStatusLine head)
    (hn : LF ∉ head) (hb : Empty p) : Scan (head ++ [byte]) [] p' := by
  have hh : ∀ k < http1dot.length, http11.getD k 0 ≠ LF := by decide
  have hen (q : Parser) (hq : q.state = .headerStart) (hqb : Empty q) : Scan (head ++ [LF]) [] q :=
    scan_start hn hq hqb fun hs => absurd hs (hr [LF])
  have hsy (q : Parser) (hq : q.state.part = .requestLine) (hqb : Empty q) (hby : byte ≠ LF) :
      Scan (head ++ [byte]) [] q := by
    refine .line (notMem_concat hn hby) ?_ rfl (fun he => nomatch hq.symm.trans he) hqb
    cases hst : q.state <;> simp_all [InLine]
  cases hst : p.state <;> simp [hst] at hpr
  all_goals
    simp only [parseByte, hst] at h
    obtain ⟨h, -, -⟩ := next_eq_ok h
    simp only [parseRequestLineMethod, parseRequestLineUri, parseRequestLineHttpVersion, expect,
      fail] at h
  case requestLineMethod =>
    split_ifs at h with hsp hse <;> cases h
    · exact hsy _ rfl hb (by rw [hsp]; decide)
    · exact hsy _ (by simp [hst]) hb fun he => hse (.inr (.inr he))
  case requestLineUri =>
    split_ifs at h with hsp hu hse <;> cases h
    · exact hsy _ rfl hb (by rw [hsp]; decide)
    · exact hsy _ (by simp [hst]) hb fun he => hse (.inr he)
  case requestLineHttpVersion =>
    split_ifs at h with hlt hby heq ho hz hcr hlf <;> cases h
    · exact hsy _ (by simp [hst]) hb (of_not_not hby ▸ hh _ hlt)
    · exact hsy _ (by simp [hst]) hb (by rw [ho]; decide)
    · exact hsy _ (by simp [hst]) hb (by rw [hz]; decide)
    · exact hsy _ rfl hb (by rw [hcr]; decide)
    · exact of_not_not hlf ▸ hen _ rfl hb
  case requestLineEnding =>
    split_ifs at h with hlf
    cases h
    exact of_not_not hlf ▸ hen _ rfl hb

end

section

variable {raw : List (Text × List Text)}

@[simp] theorem joined_cons (field : Text × List Text) :
    joined (field :: raw) = joined raw ++ [(field.1, field.2.flatten)] := by
  simp [joined]

theorem fieldOf_eq {first : UInt8} {rest : Text} (hr : COLON ∉ rest) (t : Text) :
    fieldOf (first :: rest ++ COLON :: t) =
      ((first :: rest).map toLowerCaseByte, [t.dropWhile isBlank]) := by
  have ht : (rest ++ COLON :: t).takeWhile (· ≠ COLON) = rest := by
    rw [takeWhile_append_of_pos fun b hb => by simpa using ne_of_mem_of_not_mem hb hr]
    simp
  simp only [fieldOf, cons_append, take_succ_cons, take_zero, drop_succ_cons, drop_zero, ht]
  simp

theorem joined_addLine {first : UInt8} {rest : Text} (hr : COLON ∉ rest)
    (hb : raw = [] ∨ isBlank first = false) (t : Text) :
    joined (addLine raw (first :: rest ++ COLON :: t)) =
      joined raw ++ [((first :: rest).map toLowerCaseByte, t.dropWhile isBlank)] := by
  have ha : addLine raw (first :: rest ++ COLON :: t) = fieldOf (first :: rest ++ COLON :: t) :: raw := by
    cases raw with
    | nil => rfl
    | cons field raw => exact if_neg (by simpa using hb)
  rw [ha, joined_cons, fieldOf_eq hr]
  simp

theorem joined_addLine_fold {byte : UInt8} (hb : isBlank byte) {name value : Text}
    (hr : joined raw = fields ++ [(name, value)]) (t : Text) :
    joined (addLine raw (byte :: t)) = fields ++ [(name, value ++ t.dropWhile isBlank)] := by
  cases raw with
  | nil => simp [joined] at hr
  | cons field raw =>
    obtain ⟨n, vs⟩ := field
    rw [joined_cons] at hr
    obtain ⟨hf, hv⟩ := append_inj' hr rfl
    obtain ⟨rfl, rfl⟩ : n = name ∧ vs.flatten = value := by simpa using hv
    have ha : addLine ((n, vs) :: raw) (byte :: t) = (n, vs ++ [t.dropWhile isBlank]) :: raw := if_pos hb
    rw [ha, joined_cons, hf]
    simp

/-- The end of a line in a value. -/
theorem InValue.newline {line value : Text} (h : InValue p fields raw line value) :
    stripCr line = line ∧ joined (addLine raw line) = fields ++ [(p.headerField, p.headerValue)] := by
  obtain ⟨opening, before, rfl, hcr, hv, hj⟩ := h
  exact ⟨stripCr_of_notMem hcr, by rw [hj, hv]⟩

/-- One more byte of a value. -/
theorem InValue.concat {line value d : Text} (h : InValue p fields raw line value) (hb : byte ≠ CR)
    (hd : (value ++ [byte]).dropWhile isBlank = value.dropWhile isBlank ++ d)
    (hf : p'.headerField = p.headerField) (hv : p'.headerValue = p.headerValue ++ d) :
    InValue p' fields raw (line ++ [byte]) (value ++ [byte]) := by
  obtain ⟨opening, before, rfl, hcr, hv', hj⟩ := h
  refine ⟨opening, before, by simp, notMem_concat hcr hb, ?_, fun t => hf ▸ hj t⟩
  rw [hv, hv', hd, append_assoc]

theorem dropWhile_concat (value : Text) (byte : UInt8) :
    (value ++ [byte]).dropWhile isBlank =
      if value.dropWhile isBlank = [] ∧ isBlank byte then [] else value.dropWhile isBlank ++ [byte] := by
  rw [dropWhile_append]
  cases hv : value.dropWhile isBlank with
  | nil => cases hb : isBlank byte <;> simp [hb]
  | cons => simp

end

section

variable {start : Text} {lines : List Text} {line : Text}
  (hs : splitLines head = (start :: lines, line))
  (hc : isStatusLine head → p.statusCode = number (codeOf start)) (hp : p'.statusCode = p.statusCode)

include hs hc hp

theorem scan_stay (hb : byte ≠ LF)
    (hi : InFields p' fields ((lines.map stripCr).foldl addLine []) (line ++ [byte])) :
    Scan (head ++ [byte]) fields p' := by
  refine .fields start lines (line ++ [byte]) ?_ (fun hl => ?_) hi
  · rw [splitLines_concat, hs, addByte, if_neg hb]
  · rw [hp]
    exact hc (isStatusLine_of_concat (by simp [hs]) hl)

theorem scan_newline
    (hi : InFields p' fields (addLine ((lines.map stripCr).foldl addLine []) (stripCr line)) []) :
    Scan (head ++ [LF]) fields p' := by
  refine .fields start (lines ++ [line]) [] ?_ (fun hl => ?_) ?_
  · rw [splitLines_concat, hs, addByte, if_pos rfl]
    rfl
  · rw [hp]
    exact hc (isStatusLine_of_concat (by simp [hs]) hl)
  · rw [map_append, foldl_append]
    exact hi

/-- The byte after a field, or the first one of the fields. -/
theorem scan_afterHeader (hl : line = []) (hq : p' = (afterHeader p₁ byte).1)
    (he : Empty p₁) (hf : fields = joined ((lines.map stripCr).foldl addLine []))
    (hb : (lines.map stripCr).foldl addLine [] = [] ∨ isBlank byte = false) :
    Scan (head ++ [byte]) fields p' := by
  subst hl
  rw [afterHeader] at hq
  split_ifs at hq with hcr hlf
  · rw [hcr]
    refine scan_stay hs hc hp (by decide) ?_
    rw [hq]
    exact ⟨.inr rfl, hf⟩
  · rw [hlf]
    refine scan_newline hs hc hp ?_
    rw [hq]
    exact ⟨.inl rfl, hf⟩
  · refine scan_stay hs hc hp hlf ?_
    rw [hq]
    exact ⟨byte, [], rfl, not_mem_nil, by simpa using Ne.symm hcr, hb, by simp [he.1], he.2, hf⟩

end

section

variable (h : parseByte core p byte = .ok (p', again, []))

include h

theorem scan_fields_step {start : Text} {lines : List Text} {line : Text}
    (hs : splitLines head = (start :: lines, line))
    (hc : isStatusLine head → p.statusCode = number (codeOf start))
    (hi : InFields p fields ((lines.map stripCr).foldl addLine []) line)
    (hpr : p.state.part = .fields) : Scan (head ++ [byte]) (fields ++ fieldAt p byte) p' := by
  have hcd : p'.statusCode = p.statusCode :=
    (fields_frame hpr (silent_ne_headerEnding h) h).2.2.2.1
  have hnn (hne : p.state ≠ .headerValueFoldOrEnd) : fields ++ fieldAt p byte = fields := by
    rw [fieldAt_of_ne hne, append_nil]
  generalize hrw : (lines.map stripCr).foldl addLine [] = raw at hi
  unfold InFields at hi
  cases hst : p.state <;> simp [hst] at hpr <;> simp only [hst] at hi
  case headerStart =>
    obtain ⟨rfl, rfl, rfl, he⟩ := hi
    simp only [parseByte, hst] at h
    cases h
    rw [hnn (by simp [hst])]
    exact scan_afterHeader hs hc hcd rfl rfl he (by rw [hrw]; rfl) (.inl hrw)
  case headerField =>
    obtain ⟨first, rest, rfl, hr, hcr, hb, hf, hv, rfl⟩ := hi
    simp only [parseByte, hst] at h
    obtain ⟨h, -, -⟩ := next_eq_ok h
    simp only [parseHeaderField, fail] at h
    rw [hnn (by simp [hst])]
    split_ifs at h with hcl ht <;> cases h
    · rw [hcl]
      refine scan_stay hs hc rfl (by decide) ?_
      rw [hrw]
      refine ⟨[], ⟨first :: rest ++ [COLON], [], by simp, notMem_concat hcr (by decide), hv, fun t => ?_⟩,
        rfl⟩
      rw [append_assoc, hf]
      exact joined_addLine hr hb t
    · have hne {b : UInt8} (hb : isTokenChar b = false) : byte ≠ b := by
        rintro rfl
        exact ht (by simp [hb])
      refine scan_stay hs hc rfl (hne (by decide)) ?_
      simp only [InFields, hst, hrw]
      exact ⟨first, rest ++ [byte], rfl, notMem_concat hr hcl, notMem_concat hcr (hne (by decide)), hb,
        by simp [hf], hv, trivial⟩
  case headerValueStart =>
    obtain ⟨value, hvl, hbl⟩ := hi
    simp only [parseByte, hst, parseHeaderValueStart] at h
    rw [hnn (by simp [hst])]
    split_ifs at h with hcr hlf hb <;> cases h
    · exact hcr ▸ scan_stay hs hc rfl (by decide) (hrw ▸ ⟨line, value, rfl, hvl⟩)
    · rw [← hvl.newline.1] at hvl
      exact hlf ▸ scan_newline hs hc rfl (hrw ▸ ⟨rfl, hvl.newline.2⟩)
    · have hd : (value ++ [byte]).dropWhile isBlank = value.dropWhile isBlank ++ [byte] := by
        rw [dropWhile_concat, if_neg (by simp [isBlank, hb])]
      exact scan_stay hs hc rfl hlf (hrw ▸ ⟨value ++ [byte], hvl.concat hcr hd rfl rfl, by simp [hd]⟩)
    · have hd : (value ++ [byte]).dropWhile isBlank = value.dropWhile isBlank ++ [] := by
        rw [dropWhile_concat, if_pos ⟨hbl, by simpa [isBlank, or_iff_not_imp_left] using hb⟩, hbl]
        rfl
      refine scan_stay hs hc rfl hlf ?_
      simp only [InFields, hst, hrw]
      exact ⟨value ++ [byte], hvl.concat hcr hd rfl (by simp), by simp [hd, hbl]⟩
  case headerValue =>
    obtain ⟨value, hvl, hne⟩ := hi
    simp only [parseByte, hst, parseHeaderValue] at h
    rw [hnn (by simp [hst])]
    split_ifs at h with hcr hlf <;> cases h
    · exact hcr ▸ scan_stay hs hc rfl (by decide) (hrw ▸ ⟨line, value, rfl, hvl⟩)
    · rw [← hvl.newline.1] at hvl
      exact hlf ▸ scan_newline hs hc rfl (hrw ▸ ⟨rfl, hvl.newline.2⟩)
    · have hd : (value ++ [byte]).dropWhile isBlank = value.dropWhile isBlank ++ [byte] := by
        rw [dropWhile_concat, if_neg fun hn => hne hn.1]
      refine scan_stay hs hc rfl hlf ?_
      simp only [InFields, hrw]
      exact ⟨value ++ [byte], hvl.concat hcr hd rfl rfl, by simp [hd]⟩
  case headerValueFoldingOrEnding =>
    obtain ⟨text, value, rfl, hvl⟩ := hi
    simp only [parseByte, hst] at h
    obtain ⟨h, -, -⟩ := next_eq_ok h
    obtain ⟨rfl, h⟩ := expect_eq_ok h
    cases h
    rw [hnn (by simp [hst])]
    refine scan_newline hs hc rfl ?_
    rw [hrw, stripCr_concat]
    exact ⟨rfl, hvl.newline.2⟩
  case headerValueFoldOrEnd =>
    obtain ⟨rfl, hj⟩ := hi
    simp only [parseByte, hst] at h
    split_ifs at h with hb
    · cases h
      have hbl : isBlank byte := by simpa [isBlank] using hb
      rw [fieldAt, if_neg fun hf => hb.elim hf.2.1 hf.2.2, append_nil]
      refine scan_stay hs hc rfl (by rcases hb with rfl | rfl <;> decide) (hrw ▸ ?_)
      refine ⟨[], ⟨[byte], p.headerValue, by simp, ?_, by simp, fun t => ?_⟩, rfl⟩
      · rcases hb with rfl | rfl <;> decide
      · exact joined_addLine_fold hbl hj t
    · obtain ⟨p₁, ha, heq⟩ := map_eq_ok h
      cases heq
      obtain ⟨headers, rfl, -⟩ := addHeader_ok ha
      rw [not_or] at hb
      rw [fieldAt, if_pos ⟨hst, hb⟩]
      exact scan_afterHeader hs hc hcd rfl rfl ⟨rfl, rfl⟩ (by rw [hrw, hj])
        (.inr (by simp [isBlank, hb]))
  case headerEnding => exact absurd hst (silent_ne_headerEnding h)

theorem scan_step (hln : Line clean isHead head p) (hsc : Scan head fields p) :
    Scan (head ++ [byte]) (fields ++ fieldAt p byte) p' := by
  cases hsc with
  | broken hb => exact .broken (hb.concat byte)
  | line hn hl hf hp hb =>
    rw [hf, nil_append, fieldAt_of_ne fun hs => hp (by rw [hs]; rfl)]
    cases hln with
    | start hst hu hh =>
      rw [hh]
      exact scan_start_step h hst hb
    | version hst hu hh =>
      rw [hh]
      exact scan_version_step h hst hu hb
    | statusLine hpr ha => exact scan_statusLine_step h hpr ha hn hl hb
    | requestLine hpr hr => exact scan_requestLine_step h hpr hr.head hn hb
    | response hpr | request hpr => exact absurd hpr hp
  | fields start lines line hs hc hi =>
    refine scan_fields_step h hs hc hi ?_
    unfold InFields at hi
    cases hst : p.state <;> simp_all

end

theorem parseByte_headerEnding_error (core : Core Uri) (hp : p.state = .headerEnding) (hb : byte ≠ LF) :
    parseByte core p byte = .error (.httpException "Failed to parse HTTP") := by
  simp only [parseByte, hp]
  exact if_pos hb

/-- What is known at the end of the headers, where the last byte of the head is an LF. -/
theorem Scan.atEnd (h : Scan head fields p) (hp : p.state = .headerEnding) (hg : ¬Broken head) :
    fields = runTogether head ∧ fields = runTogether (head ++ [LF]) ∧ (splitLines head).1 ≠ [] ∧
      (isStatusLine head → p.statusCode = number (codeOf (startLine head))) := by
  cases h with
  | broken hb => exact absurd hb hg
  | line _ _ _ hpr => exact absurd (by rw [hp]; rfl) hpr
  | fields start lines line hs hc hi =>
    simp only [InFields, hp] at hi
    have hs' := splitLines_concat head LF
    rw [hs, addByte, if_pos rfl] at hs'
    have he : stripCr line = [] := by rcases hi.1 with rfl | rfl <;> rfl
    refine ⟨?_, ?_, by simp [hs], ?_⟩
    · rw [runTogether, fieldLines, hs]
      exact hi.2
    · rw [runTogether, fieldLines, hs', cons_append, tail_cons, map_append, foldl_append, map_singleton,
        he]
      exact hi.2
    · rw [startLine, hs]
      exact hc

theorem Line.requestParser_eq (hl : Line clean isHead head p) (hst : p.state = .headerEnding)
    (hh : isStatusLine head) : p.requestParser = false := by
  have hpr : p.state.part = .fields := by rw [hst]; rfl
  cases hl with
  | response _ ha => exact ha.parser
  | request _ hr => exact absurd (by simpa using hh) (hr.head [])
  | _ => simp_all

theorem Parser.Idle.scan (h : p.Idle) : Scan [] [] p := by
  rw [h]
  exact .line not_mem_nil trivial rfl (by simp [new]) ⟨rfl, rfl⟩

/-- **The fields that the parser reads are those with their lines run together**, and its status code is
that of the status line. -/
theorem readHead_fields {before : List UInt8} {fields₀ : List (Text × Text)} {message : Incoming Uri}
    (hln : Line clean isHead before p) (hsc : Scan before fields₀ p)
    (h : readHead core p fields₀ head = some (fields, message)) (hg : HasStartLine (before ++ head)) :
    fields = runTogether (before ++ head) ∧
      (isStatusLine (before ++ head) →
        message.statusCode = number (codeOf (startLine (before ++ head)))) := by
  induction head generalizing p before fields₀ clean with
  | nil => cases h
  | cons byte head ih =>
    rw [readHead] at h
    have hpt := hln.part_ne_body
    split_ifs at h with hsl hls
    · have hpr := feed_silent hpt (List.isEmpty_iff.mp hsl)
      rw [append_cons] at hg ⊢
      exact ih (line_step hpr hln) (scan_step hpr hln hsc) h hg
    · obtain rfl := List.isEmpty_iff.mp hls
      obtain ⟨m, hrp, heq⟩ := Option.map_eq_some_iff.mp h
      cases heq
      obtain ⟨q, hq, hstate, ⟨uri, rfl⟩, hfeed⟩ := feed_reported hpt hrp
      have hcd (hr : q.requestParser = false) :
          (createIncoming q uri).statusCode = q.statusCode := by simp [createIncoming, hr]
      rcases hq with rfl | hpr
      · -- the last byte ends the line that is empty
        obtain rfl : byte = LF := by
          by_contra hne
          have he := feed_of_error (by simp [hstate]) (parseByte_headerEnding_error core hstate hne)
          rw [he] at hrp
          cases hrp
        obtain ⟨-, hf, hs, hc⟩ := hsc.atEnd hstate fun hb => (hb.concat LF).2 hg
        rw [fieldAt_of_ne (by simp [hstate]), append_nil]
        refine ⟨hf, fun hl => ?_⟩
        have hl' := isStatusLine_of_concat hs hl
        rw [hcd (hln.requestParser_eq hstate hl'), (startLine_concat hs LF).2]
        exact hc hl'
      · have hsc' := scan_step hpr hln hsc
        obtain ⟨hf, -, -, hc⟩ := hsc'.atEnd hstate fun hb => hb.2 hg
        refine ⟨hf, fun hl => ?_⟩
        rw [hcd ((line_step hpr hln).requestParser_eq hstate hl)]
        exact hc hl

end Scan

end DartSdk.Io.HttpParser
