import DartSdk.Io.HttpParser.Framing
import Mathlib.Algebra.Group.Nat.Defs
import Mathlib.Data.List.GetD

/-!
# Chunked bodies that are written

`_HttpOutgoing` for a message with chunked transfer encoding and without compression, once the headers
are written: they may still be in the buffer.  What it gives to the socket is a list of blocks.

The line break after a chunk is written with the header of the next chunk, and small blocks are put
together in the buffer.

* `chunkHeader_eq`: the header of a chunk is the line break that is due and the line with its size;
* `exists_emit`: **what is written is what was in the buffer and then a chunked body**, whose chunks
  are the blocks that are not empty.
-/

namespace DartSdk.Io.HttpOutgoing

open List

open HttpParser (CR LF hexByte nibbles emptyBody ChunkLine Chunk ChunkedBody)

section Model

/-- `_OUTGOING_BUFFER_SIZE` -/
def outgoingBufferSize : ℕ := 8 * 1024

def footerAndChunk0Length : List UInt8 := [CR, LF, 0x30, CR, LF, CR, LF]

def chunk0Length : List UInt8 := [0x30, CR, LF, CR, LF]

structure Outgoing where
  bufferOutput : Bool
  /-- `_buffer` up to `_length`, or `null`. -/
  buffer : Option (List UInt8)
  pendingChunkedFooter : ℕ
  deriving DecidableEq

/-- `_addChunk`, with the blocks that are given to `add`.  There is no result when a buffer is needed
and there is none. -/
def addChunk (o : Outgoing) (chunk : List UInt8) : Option (Outgoing × List (List UInt8)) :=
  if !o.bufferOutput then
    match o.buffer with
    | some buffer => some ({ o with buffer := none }, [buffer, chunk])
    | none => some (o, [chunk])
  else
    match o.buffer with
    | none => none
    | some buffer =>
      let flushed : List UInt8 × List (List UInt8) :=
        if outgoingBufferSize - buffer.length < chunk.length then ([], [buffer]) else (buffer, [])
      if outgoingBufferSize < chunk.length then
        some ({ o with buffer := some flushed.1 }, flushed.2 ++ [chunk])
      else some ({ o with buffer := some (flushed.1 ++ chunk) }, flushed.2)

def hexDigits : List UInt8 :=
  [0x30, 0x31, 0x32, 0x33, 0x34, 0x35, 0x36, 0x37, 0x38, 0x39, 0x41, 0x42, 0x43, 0x44, 0x45, 0x46]

/-- The first loop of `_chunkHeader`, which counts the digits. -/
def digitCount (len : ℕ) : ℕ := if 0 < len then digitCount (len >>> 4) + 1 else 0
decreasing_by
  rw [Nat.shiftRight_eq_div_pow]
  omega

/-- The second loop of `_chunkHeader`, which writes that many digits before what is there. -/
def writeDigits : ℕ → ℕ → List UInt8 → List UInt8
  | 0, _, bytes => bytes
  | index + 1, length, bytes =>
    writeDigits index (length >>> 4) (hexDigits.getD (length &&& 15) 0 :: bytes)

/-- `_chunkHeader` -/
def chunkHeader (o : Outgoing) (length : ℕ) : List UInt8 :=
  if length = 0 then if o.pendingChunkedFooter = 2 then footerAndChunk0Length else chunk0Length
  else
    (if o.pendingChunkedFooter = 2 then [CR, LF] else List.replicate o.pendingChunkedFooter 0) ++
      writeDigits (digitCount length) length [CR, LF]

/-- `onData` of `addStream` -/
def onData (o : Outgoing) (data : List UInt8) : Option (Outgoing × List (List UInt8)) :=
  if data.length = 0 then some (o, [])
  else do
    let (o, header) ← addChunk o (chunkHeader o data.length)
    let (o, block) ← addChunk { o with pendingChunkedFooter := 2 } data
    some (o, header ++ block)

/-- `finalize` of `close` -/
def close (o : Outgoing) : Option (List (List UInt8)) := do
  let (o, footer) ← addChunk o (chunkHeader o 0)
  some (footer ++ if 0 < (o.buffer.getD []).length then [o.buffer.getD []] else [])

/-- All that is written when the blocks are added and the message is closed. -/
def emit (o : Outgoing) : List (List UInt8) → Option (List (List UInt8))
  | [] => close o
  | data :: blocks => do
    let (o, written) ← onData o data
    let rest ← emit o blocks
    some (written ++ rest)

end Model

section Sizes

variable (count n : ℕ) (data : List UInt8) (hne : data ≠ [])

theorem hexDigits_getD (n : ℕ) : hexDigits.getD (n &&& 15) 0 = hexByte (Fin.ofNat 16 n, true) := by
  have hd : ∀ d : Fin 16, hexDigits.getD d 0 = hexByte (d, true) := by decide
  have hm : n &&& 15 = (Fin.ofNat 16 n).val := Nat.and_two_pow_sub_one_eq_mod n 4
  rw [hm, hd]

theorem writeDigits_eq (bytes : List UInt8) :
    writeDigits count n bytes = (nibbles count n).map hexByte ++ bytes := by
  induction count generalizing n bytes with
  | zero => rfl
  | succ count ih =>
    rw [writeDigits, ih, hexDigits_getD, nibbles, Nat.shiftRight_eq_div_pow, map_append,
      append_assoc]
    rfl

theorem foldl_nibbles :
    (nibbles count n).foldl (fun size digit => size * 16 + digit.1.val) 0 = n % 16 ^ count := by
  induction count generalizing n with
  | zero => simp [nibbles, Nat.mod_one]
  | succ count ih =>
    rw [nibbles, foldl_append, ih, Nat.pow_succ', Nat.mod_mul, foldl_cons, foldl_nil,
      Fin.val_ofNat]
    omega

theorem lt_digitCount (n : ℕ) : n < 16 ^ digitCount n := by
  induction n using Nat.strongRecOn with
  | ind n ih =>
    rw [digitCount]
    split_ifs with hn
    · rw [Nat.shiftRight_eq_div_pow, Nat.pow_succ]
      have hlt := ih (n / 2 ^ 4) (by omega)
      omega
    · omega

def sizeLine : ChunkLine :=
  { emptyBody.last with
    digits := nibbles (digitCount data.length) data.length
    digits_ne := by
      have hpos : 0 < data.length := length_pos_iff.mpr hne
      rw [digitCount, if_pos hpos, nibbles]
      simp }

theorem size_sizeLine : (sizeLine data hne).size = data.length := by
  rw [ChunkLine.size, sizeLine, foldl_nibbles, Nat.mod_eq_of_lt (lt_digitCount data.length)]

def chunkOf : Chunk where
  line := sizeLine data hne
  data := data
  data_ne := hne
  size_eq := size_sizeLine data hne

/-- The chunks of the blocks that are not empty. -/
def chunksOf : List (List UInt8) → List Chunk
  | [] => []
  | data :: blocks => if hne : data = [] then chunksOf blocks else chunkOf data hne :: chunksOf blocks

def bodyOf (blocks : List (List UInt8)) : ChunkedBody := { emptyBody with chunks := chunksOf blocks }

theorem data_bodyOf (blocks : List (List UInt8)) : (bodyOf blocks).data = blocks.flatten := by
  show (chunksOf blocks).flatMap Chunk.data = blocks.flatten
  induction blocks with
  | nil => rfl
  | cons data blocks ih =>
    rw [chunksOf]
    split_ifs with hne
    · rw [ih, hne]
      rfl
    · rw [flatMap_cons, ih]
      rfl

end Sizes

section Writer

variable {o : Outgoing} {chunk : List UInt8}

def footer (o : Outgoing) : List UInt8 := if o.pendingChunkedFooter = 2 then [CR, LF] else []

def buffered (o : Outgoing) : List UInt8 := o.buffer.getD []

/-- There is a buffer if one is needed, and a line break is due or not. -/
structure Ready (o : Outgoing) : Prop where
  buffer : o.bufferOutput = true → o.buffer ≠ none
  footer : o.pendingChunkedFooter = 0 ∨ o.pendingChunkedFooter = 2

/-- What is written and what is in the buffer is what was in the buffer and the chunk. -/
theorem exists_addChunk (hr : Ready o) (chunk : List UInt8) :
    ∃ o' out, addChunk o chunk = some (o', out) ∧ Ready o' ∧
      o'.pendingChunkedFooter = o.pendingChunkedFooter ∧
      out.flatten ++ buffered o' = buffered o ++ chunk := by
  obtain ⟨hb, hf⟩ := hr
  obtain ⟨bufferOutput, buffer, _⟩ := o
  cases bufferOutput with
  | false =>
    cases buffer with
    | none | some bytes => exact ⟨_, _, rfl, ⟨nofun, hf⟩, rfl, by simp [buffered]⟩
  | true =>
    cases buffer with
    | none => exact absurd rfl (hb rfl)
    | some bytes =>
      simp only [addChunk, Bool.not_true, Bool.false_eq_true, if_false]
      by_cases hlong : outgoingBufferSize < chunk.length
      · have hfl : outgoingBufferSize - bytes.length < chunk.length := by omega
        rw [if_pos hlong, if_pos hfl]
        exact ⟨_, _, rfl, ⟨by simp, hf⟩, rfl, by simp [buffered]⟩
      · rw [if_neg hlong]
        refine ⟨_, _, rfl, ⟨by simp, hf⟩, rfl, ?_⟩
        split_ifs <;> simp [buffered]

theorem chunkHeader_eq (hr : Ready o) {data : List UInt8} (hne : data ≠ []) :
    chunkHeader o data.length = footer o ++ (sizeLine data hne).bytes := by
  have hl : data.length ≠ 0 := by simpa using hne
  have hln : (sizeLine data hne).bytes = writeDigits (digitCount data.length) data.length [CR, LF] := by
    rw [writeDigits_eq]
    simp [ChunkLine.bytes, sizeLine, emptyBody]
  rw [chunkHeader, if_neg hl, hln, footer]
  rcases hr.footer with hp | hp
  · simp [hp]
  · simp [hp]

theorem chunkHeader_zero : chunkHeader o 0 = footer o ++ chunk0Length := by
  rw [chunkHeader, if_pos rfl, footer]
  split_ifs <;> rfl

theorem exists_onData (hr : Ready o) {data : List UInt8} (hne : data ≠ []) :
    ∃ o' out, onData o data = some (o', out) ∧ Ready o' ∧ o'.pendingChunkedFooter = 2 ∧
      out.flatten ++ buffered o' =
        buffered o ++ (footer o ++ ((sizeLine data hne).bytes ++ data)) := by
  have hl : data.length ≠ 0 := by simpa using hne
  obtain ⟨o₁, out₁, ha₁, hr₁, -, hb₁⟩ := exists_addChunk hr (chunkHeader o data.length)
  obtain ⟨o₂, out₂, ha₂, hr₂, hp, hb₂⟩ :=
    exists_addChunk (o := { o₁ with pendingChunkedFooter := 2 }) ⟨hr₁.buffer, .inr rfl⟩ data
  refine ⟨o₂, out₁ ++ out₂, ?_, hr₂, hp, ?_⟩
  · simp [onData, hl, ha₁, ha₂]
  · have hs : buffered { o₁ with pendingChunkedFooter := 2 } = buffered o₁ := rfl
    rw [flatten_append, append_assoc, hb₂, hs, ← append_assoc, hb₁,
      chunkHeader_eq hr hne]
    simp only [append_assoc]

theorem exists_close (hr : Ready o) :
    ∃ out, close o = some out ∧ out.flatten = buffered o ++ (footer o ++ chunk0Length) := by
  obtain ⟨o', out, ha, -, -, hb⟩ := exists_addChunk hr (chunkHeader o 0)
  refine ⟨out ++ if 0 < (buffered o').length then [buffered o'] else [], ?_, ?_⟩
  · unfold close
    rw [ha]
    rfl
  · rw [← chunkHeader_zero, ← hb, flatten_append]
    split_ifs with hp
    · simp
    · have hn : buffered o' = [] := by simpa using hp
      simp [hn]

theorem exists_emit (hr : Ready o) (blocks : List (List UInt8)) :
    ∃ out, emit o blocks = some out ∧
      out.flatten = buffered o ++ (footer o ++ (bodyOf blocks).bytes) := by
  induction blocks generalizing o with
  | nil => exact exists_close hr
  | cons data blocks ih =>
    by_cases hne : data = []
    · subst hne
      obtain ⟨out, he, hb⟩ := ih hr
      refine ⟨out, by simp [emit, onData, he], hb⟩
    obtain ⟨o', out, ha, hr', hp, hb⟩ := exists_onData hr hne
    obtain ⟨rest, hrs, hb'⟩ := ih hr'
    have hf : footer o' = [CR, LF] := by simp [footer, hp]
    have hbd : (bodyOf (data :: blocks)).bytes =
        (sizeLine data hne).bytes ++ data ++ [CR, LF] ++ (bodyOf blocks).bytes := by
      simp [bodyOf, ChunkedBody.bytes, chunksOf, hne, Chunk.bytes, chunkOf]
    refine ⟨out ++ rest, by simp [emit, ha, hrs], ?_⟩
    rw [flatten_append, hb', hf, ← append_assoc, hb, hbd]
    simp only [append_assoc]

end Writer

end DartSdk.Io.HttpOutgoing
