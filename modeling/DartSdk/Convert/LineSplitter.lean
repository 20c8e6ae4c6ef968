import Mathlib.Data.List.Range

/-!
# `LineSplitter` of `dart:convert`

`LineSplitter.split` and the chunked `_LineSplitterSink`.  Strings are lists of code units.

* `Reader` reads one code unit after the other; `split` (`scan_reads`) and the sink (`Sink.Reads.addSlice`)
  do what it does.
* The lines of a text are given by `IsLines`.
-/

namespace DartSdk.Convert.LineSplitter

open List Option

section Model

def LF : UInt16 := 10
def CR : UInt16 := 13

def substring (text : List UInt16) (start stop : ℕ) : List UInt16 := (text.take stop).drop start

/-- A part of a string, as `checkValidRange` lets it pass. -/
structure Slice where
  chunk : List UInt16
  start : ℕ
  stop : ℕ
  start_le : start ≤ stop
  stop_le : stop ≤ chunk.length

def Slice.text (slice : Slice) : List UInt16 := substring slice.chunk slice.start slice.stop

def Slice.whole (chunk : List UInt16) : Slice := ⟨chunk, 0, chunk.length, Nat.zero_le _, Nat.le_refl _⟩

/-- The lines so far and the local variables of the loop that both functions have. -/
structure Scan where
  lines : List (List UInt16)
  sliceStart : ℕ
  char : UInt16

/-- The body of the loop. -/
def Scan.next (text : List UInt16) (s : Scan) (i : ℕ) : Scan :=
  let char := text.getD i 0
  if char ≠ CR ∧ char ≠ LF then { s with char := char }
  else if char ≠ CR ∧ s.char = CR then { s with sliceStart := i + 1, char := char }
  else ⟨s.lines ++ [substring text s.sliceStart i], i + 1, char⟩

def scan (lines : List (List UInt16)) (text : List UInt16) (start stop : ℕ) : Scan :=
  (List.range' start (stop - start)).foldl (Scan.next text) ⟨lines, start, 0⟩

def split (slice : Slice) : List (List UInt16) :=
  let s := scan [] slice.chunk slice.start slice.stop
  if s.sliceStart < slice.stop then s.lines ++ [substring slice.chunk s.sliceStart slice.stop]
  else s.lines

/-- `_LineSplitterSink` with what it has given to the output sink. -/
structure Sink where
  carry : Option (List UInt16) := none
  skipLeadingLF : Bool := false
  lines : List (List UInt16) := []
  closed : ℕ := 0

namespace Sink

def addLines (sink : Sink) (text : List UInt16) (start stop : ℕ) : Sink :=
  let s := scan sink.lines text start stop
  if s.sliceStart < stop then
    { sink with lines := s.lines, carry := some (substring text s.sliceStart stop) }
  else { sink with lines := s.lines, skipLeadingLF := s.char = CR }

def close (sink : Sink) : Sink :=
  { sink with lines := sink.lines ++ sink.carry.toList, carry := none, closed := sink.closed + 1 }

def addSlice (sink : Sink) (slice : Slice) (isLast : Bool) : Sink :=
  let added :=
    if slice.stop ≤ slice.start then sink
    else match sink.carry with
      | some carry =>
        let chunk := carry ++ slice.text
        { sink with carry := none }.addLines chunk 0 chunk.length
      | none =>
        { sink with skipLeadingLF := false }.addLines slice.chunk
          (if sink.skipLeadingLF ∧ slice.chunk.getD slice.start 0 = LF then slice.start + 1
            else slice.start) slice.stop
  if isLast then added.close else added

/-- The input ends with a last slice or with `close`. -/
def finish (sink : Sink) : Option Slice → Sink
  | some slice => sink.addSlice slice true
  | none => sink.close

def addAll (sink : Sink) (slices : List Slice) : Sink :=
  slices.foldl (fun sink slice => sink.addSlice slice false) sink

end Sink

end Model

def Plain (text : List UInt16) : Prop := ∀ char ∈ text, char ≠ CR ∧ char ≠ LF

/-- What ends a line; a CR is not taken without the LF that follows it. -/
inductive IsTerminator : List UInt16 → List UInt16 → Prop
  | lf {rest} : IsTerminator [LF] rest
  | crlf {rest} : IsTerminator [CR, LF] rest
  | cr {rest} : rest.head? ≠ some LF → IsTerminator [CR] rest

/-- The lines of a text: a last one is not empty, the others end in a terminator. -/
inductive IsLines : List UInt16 → List (List UInt16) → Prop
  | nil : IsLines [] []
  | last {line} : line ≠ [] → Plain line → IsLines line [line]
  | line {line ending rest lines} : Plain line → IsTerminator ending rest → IsLines rest lines →
    IsLines (line ++ ending ++ rest) (line :: lines)

section Reader

/-- The complete lines, the one that is being read, and whether a CR has just been read. -/
@[ext] structure Reader where
  lines : List (List UInt16) := []
  line : List UInt16 := []
  afterCR : Bool := false

namespace Reader

def read (r : Reader) (char : UInt16) : Reader :=
  if char ≠ CR ∧ char ≠ LF then ⟨r.lines, r.line ++ [char], false⟩
  else if char ≠ CR ∧ r.afterCR then ⟨r.lines, [], false⟩
  else ⟨r.lines ++ [r.line], [], char = CR⟩

def finish (r : Reader) : List (List UInt16) := r.lines ++ (if r.line = [] then [] else [r.line])

/-- There is no terminator in the line, and nothing of it after a CR. -/
structure Ok (r : Reader) : Prop where
  plain : Plain r.line
  after : r.afterCR → r.line = []

variable {r : Reader} {char : UInt16} {text : List UInt16}

theorem Ok.init : Ok {} := ⟨nofun, nofun⟩

theorem Ok.read (h : r.Ok) (char : UInt16) : (r.read char).Ok := by
  unfold Reader.read
  split
  · next hc =>
    exact ⟨forall_mem_append.mpr ⟨h.plain, forall_mem_singleton.mpr hc⟩, nofun⟩
  · split
    · exact ⟨nofun, nofun⟩
    · exact ⟨nofun, fun _ => rfl⟩

theorem Ok.foldl (h : r.Ok) (text : List UInt16) : (text.foldl Reader.read r).Ok := by
  induction text generalizing r with
  | nil => exact h
  | cons char text ih => exact ih (h.read char)

theorem foldl_read_line (h : Plain text) (lines line) :
    text.foldl read ⟨lines, line, false⟩ = ⟨lines, line ++ text, false⟩ := by
  induction text generalizing line with
  | nil => rw [foldl_nil, append_nil]
  | cons char text ih =>
    obtain ⟨hc, h⟩ := forall_mem_cons.mp h
    rw [foldl_cons, read, if_pos hc, ih h, append_assoc]
    rfl

/-- What remains to be read: after a CR a LF is not part of it. -/
def rest (afterCR : Bool) : List UInt16 → List UInt16
  | [] => []
  | char :: text => if afterCR ∧ char = LF then text else char :: text

theorem foldl_rest (b : Bool) (lines) (char : UInt16) (text : List UInt16) :
    (rest b (char :: text)).foldl read ⟨lines, [], false⟩ =
      (char :: text).foldl read ⟨lines, [], b⟩ := by
  rw [rest]
  split
  · next h =>
    obtain ⟨rfl, rfl⟩ := h
    rfl
  next h =>
  cases b with
  | false => rfl
  | true =>
    have hlf : char ≠ LF := fun hlf => h ⟨rfl, hlf⟩
    by_cases hcr : char = CR
    · subst hcr
      rfl
    · rw [foldl_cons, foldl_cons, read, read, if_pos ⟨hcr, hlf⟩, if_pos ⟨hcr, hlf⟩]

theorem isLines_cr {line : List UInt16} {lines} (hl : Plain line)
    (h : IsLines (rest true text) lines) : IsLines (line ++ CR :: text) (line :: lines) := by
  cases text with
  | nil =>
    rw [append_cons]
    exact .line hl (.cr nofun) h
  | cons char text =>
    by_cases hc : char = LF
    · subst hc
      rw [rest, if_pos ⟨rfl, rfl⟩] at h
      rw [show line ++ CR :: LF :: text = line ++ [CR, LF] ++ text by simp]
      exact .line hl .crlf h
    · rw [rest, if_neg fun h => hc h.2] at h
      rw [append_cons]
      exact .line hl (.cr fun h => hc (Option.some.inj h)) h

/-- **The reader finds the lines of a text**: those of the line it is in and what it has not read. -/
theorem finish_isLines (h : r.Ok) (text : List UInt16) :
    ∃ lines, (text.foldl read r).finish = r.lines ++ lines ∧
      IsLines (r.line ++ rest r.afterCR text) lines := by
  induction text generalizing r with
  | nil =>
    refine ⟨if r.line = [] then [] else [r.line], rfl, ?_⟩
    rw [rest, append_nil]
    split
    · next hli =>
      rw [hli]
      exact .nil
    · next hli => exact .last hli h.plain
  | cons char text ih =>
    obtain ⟨lines, heq, hln⟩ := ih (h.read char)
    rw [foldl_cons, heq]
    rw [read] at hln ⊢
    split at hln
    · next hc =>
      rw [if_pos hc]
      refine ⟨lines, rfl, ?_⟩
      rw [rest, if_neg fun h => hc.2 h.2, append_cons]
      cases text <;> exact hln
    next hc =>
    rw [if_neg hc]
    split at hln
    · next ha =>
      rw [if_pos ha]
      have hch : char = LF := by_contra fun hl => hc ⟨ha.1, hl⟩
      refine ⟨lines, rfl, ?_⟩
      rw [rest, if_pos ⟨ha.2, hch⟩, h.after ha.2]
      cases text <;> exact hln
    next ha =>
    rw [if_neg ha]
    refine ⟨r.line :: lines, by rw [append_assoc]; rfl, ?_⟩
    by_cases hcr : char = CR
    · subst hcr
      rw [rest, if_neg fun h => absurd h.2 (by decide)]
      exact isLines_cr h.plain hln
    have hch : char = LF := by_contra fun hl => hc ⟨hcr, hl⟩
    have hn : ¬(r.afterCR ∧ char = LF) := fun h => ha ⟨hcr, h.1⟩
    subst hch
    rw [rest, if_neg hn, append_cons]
    refine .line h.plain .lf ?_
    cases text <;> exact hln

end Reader

end Reader

section Scanning

variable {text : List UInt16} {start stop : ℕ}

theorem substring_succ (h : start ≤ stop) (hs : stop < text.length) :
    substring text start (stop + 1) = substring text start stop ++ [text.getD stop 0] := by
  have hle : start ≤ (text.take stop).length := by
    rw [length_take]
    omega
  rw [substring, take_succ_eq_append_getElem hs, drop_append_of_le_length hle,
    getD_eq_getElem?_getD, getElem?_eq_getElem hs]
  rfl

theorem substring_cons (h : start < stop) (hs : stop ≤ text.length) :
    substring text start stop = text.getD start 0 :: substring text (start + 1) stop := by
  have hlt : start < (text.take stop).length := by
    rw [length_take]
    omega
  rw [substring, drop_eq_getElem_cons hlt, getElem_take, getD_eq_getElem?_getD,
    getElem?_eq_getElem (h.trans_le hs)]
  rfl

theorem substring_self (start : ℕ) : substring text start start = [] :=
  drop_eq_nil_of_le (length_take_le _ _)

/-- The loop at an index as a reader. -/
def Scan.reader (s : Scan) (text : List UInt16) (i : ℕ) : Reader :=
  ⟨s.lines, substring text s.sliceStart i, s.char = CR⟩

theorem Scan.next_reads {s : Scan} {i : ℕ} (hs : s.sliceStart ≤ i) (hi : i < text.length) :
    (s.next text i).reader text (i + 1) = (s.reader text i).read (text.getD i 0) ∧
      (s.next text i).sliceStart ≤ i + 1 := by
  simp only [next, Reader.read, reader, decide_eq_true_eq]
  split
  · next hc =>
    refine ⟨?_, Nat.le_succ_of_le hs⟩
    rw [substring_succ hs hi]
    exact Reader.ext rfl rfl (decide_eq_false hc.1)
  · split
    · next hc => exact ⟨Reader.ext rfl (substring_self _) (decide_eq_false hc.1), Nat.le_refl _⟩
    · exact ⟨Reader.ext rfl (substring_self _) rfl, Nat.le_refl _⟩

/-- **The loop does what the reader does.** -/
theorem scan_reads (lines) (h : start ≤ stop) (hs : stop ≤ text.length) :
    (scan lines text start stop).reader text stop =
        (substring text start stop).foldl Reader.read ⟨lines, [], false⟩ ∧
      (scan lines text start stop).sliceStart ≤ stop := by
  obtain ⟨n, rfl⟩ := Nat.exists_eq_add_of_le h
  rw [scan, Nat.add_sub_cancel_left]
  induction n with
  | zero =>
    refine ⟨?_, Nat.le_refl _⟩
    rw [Nat.add_zero, substring_self]
    exact Reader.ext rfl (substring_self _) rfl
  | succ n ih =>
    obtain ⟨heq, hle⟩ := ih (Nat.le_add_right _ _) (Nat.le_of_succ_le hs)
    rw [range'_concat, Nat.one_mul, foldl_concat, ← Nat.add_assoc,
      substring_succ (Nat.le_add_right _ _) hs, foldl_concat, ← heq]
    exact Scan.next_reads hle hs

theorem substring_eq_nil (hs : stop ≤ text.length) :
    substring text start stop = [] ↔ ¬start < stop := by
  rw [substring, drop_eq_nil_iff, length_take, Nat.min_eq_left hs, Nat.not_lt]

theorem split_eq (slice : Slice) :
    split slice = (slice.text.foldl Reader.read {}).finish := by
  obtain ⟨heq, -⟩ := scan_reads [] slice.start_le slice.stop_le
  rw [Slice.text, ← heq, Reader.finish, Scan.reader, split]
  simp only [substring_eq_nil slice.stop_le]
  split
  · rfl
  · exact (append_nil _).symm

end Scanning

section Chunks

variable {sink : Sink} {text : List UInt16}

/-- The sink has read a text: it keeps the line it is in, if there is one. -/
structure Sink.Reads (sink : Sink) (text : List UInt16) : Prop where
  reader : ⟨sink.lines, sink.carry.getD [], sink.skipLeadingLF⟩ = text.foldl Reader.read {}
  carry : sink.carry ≠ some []

theorem Sink.Reads.ok (h : sink.Reads text) :
    (⟨sink.lines, sink.carry.getD [], sink.skipLeadingLF⟩ : Reader).Ok := by
  rw [h.reader]
  exact Reader.Ok.init.foldl text

theorem Sink.addLines_reads {chunk : List UInt16} {start stop : ℕ} (hc : sink.carry = none)
    (hsk : sink.skipLeadingLF = false) (hst : start ≤ stop) (hs : stop ≤ chunk.length)
    (h : (substring chunk start stop).foldl Reader.read ⟨sink.lines, [], false⟩ =
      text.foldl Reader.read {}) : (sink.addLines chunk start stop).Reads text := by
  obtain ⟨heq, hle⟩ := scan_reads sink.lines hst hs
  have hok := Reader.Ok.init.foldl text
  rw [h] at heq
  rw [← heq] at hok
  simp only [addLines]
  split
  · next hlt =>
    have hne := (not_congr (substring_eq_nil hs)).mpr (not_not_intro hlt)
    refine ⟨heq ▸ Reader.ext rfl rfl ?_, fun h => hne (Option.some.inj h)⟩
    show sink.skipLeadingLF = _
    rw [hsk]
    exact (Bool.eq_false_iff.mpr fun ha => hne (hok.after ha)).symm
  · next hlt =>
    refine ⟨heq ▸ Reader.ext rfl ?_ rfl, fun h => nomatch hc.symm.trans h⟩
    show sink.carry.getD [] = _
    rw [hc]
    exact ((substring_eq_nil hs).mpr hlt).symm

theorem Sink.Reads.addSlice (h : sink.Reads text) (slice : Slice) :
    (sink.addSlice slice false).Reads (text ++ slice.text) := by
  have hok := h.ok
  rw [Sink.addSlice]
  simp only [Bool.false_eq_true, if_false]
  split
  · next he =>
    rw [Slice.text, (substring_eq_nil slice.stop_le).mpr (Nat.not_lt.mpr he), append_nil]
    exact h
  next hlt =>
  cases hc : sink.carry with
  | some carry =>
    have hr : ⟨sink.lines, carry, sink.skipLeadingLF⟩ = text.foldl Reader.read {} := by
      rw [← h.reader, hc]
      rfl
    rw [hc] at hok
    have hs : sink.skipLeadingLF = false :=
      Bool.eq_false_iff.mpr fun ha => h.carry (hc.trans (congrArg some (hok.after ha)))
    have hp : Plain carry := hok.plain
    refine addLines_reads rfl hs (Nat.zero_le _) (Nat.le_refl _) ?_
    -- what was kept is read again; it has no terminator
    rw [substring, take_length, drop_zero, foldl_append, foldl_append, ← hr,
      Reader.foldl_read_line hp, hs]
    rfl
  | none =>
    have hr : ⟨sink.lines, [], sink.skipLeadingLF⟩ = text.foldl Reader.read {} := by
      rw [← h.reader, hc]
      rfl
    rw [Nat.not_le] at hlt
    have hcn := substring_cons hlt slice.stop_le
    refine addLines_reads rfl rfl ?_ slice.stop_le ?_
    · split
      · exact hlt
      · exact slice.start_le
    · rw [foldl_append, ← hr, Slice.text, hcn, ← Reader.foldl_rest, Reader.rest]
      split
      · rfl
      · rw [hcn]

theorem Sink.Reads.addAll (h : sink.Reads text) (slices : List Slice) :
    (sink.addAll slices).Reads (text ++ slices.flatMap Slice.text) := by
  induction slices generalizing sink text with
  | nil =>
    rw [flatMap_nil, append_nil]
    exact h
  | cons slice slices ih =>
    rw [flatMap_cons, ← append_assoc]
    exact ih (h.addSlice slice)

theorem Sink.Reads.close (h : sink.Reads text) :
    sink.close.lines = (text.foldl Reader.read {}).finish := by
  rw [← h.reader, Reader.finish, Sink.close]
  cases hc : sink.carry with
  | none => rfl
  | some carry =>
    have hne : carry ≠ [] := fun hn => h.carry (hc.trans (congrArg some hn))
    exact congrArg (sink.lines ++ ·) (if_neg hne).symm

/-- The text of the slices and of the last one. -/
def textOf (slices : List Slice) (last : Option Slice) : List UInt16 :=
  slices.flatMap Slice.text ++ last.elim [] Slice.text

/-- **However a text is cut and its end is told, the sink gives the lines that `split` finds, and these
are the lines of the text.** -/
theorem finish_lines (slices : List Slice) (last : Option Slice) :
    ((Sink.addAll {} slices).finish last).lines = split (.whole (textOf slices last)) ∧
      IsLines (textOf slices last) (split (.whole (textOf slices last))) := by
  have hn : Sink.Reads {} [] := ⟨rfl, some_ne_none _ |>.symm⟩
  have hr : (Sink.addAll {} slices).Reads (slices.flatMap Slice.text) := hn.addAll slices
  obtain ⟨lines, heq, hl⟩ := Reader.finish_isLines .init (textOf slices last)
  have hs : split (.whole (textOf slices last)) =
      ((textOf slices last).foldl Reader.read {}).finish := by
    rw [split_eq, Slice.text, Slice.whole, substring, take_length, drop_zero]
  constructor
  · rw [hs]
    cases last with
    | none =>
      rw [textOf, elim_none, append_nil]
      exact hr.close
    | some slice => exact (hr.addSlice slice).close
  · rw [hs, heq]
    cases ht : textOf slices last <;> (rw [ht] at hl; exact hl)

end Chunks

end DartSdk.Convert.LineSplitter
