import DartSdk.Lib.Bits
import DartSdk.Lib.Codec
import Mathlib.Data.Int.Log
import Mathlib.Tactic.Linarith

/-!
# Vm.Datastream — the variable-length integers of `vm/datastream.h`

A `WriteStream` writes an integer as groups of seven bits, lowest first.  Bytes up to `0x7f` continue
the number, a byte above `0x7f` ends it and carries the remaining (sign-carrying) value plus an end
marker.  The signed and the unsigned writer differ in the marker and in the values they accept in
the last byte.  `Read<T>` is a loop; `Read16`, `Read32` and `Read64` are the same loop unrolled by
hand.  Sub-`int` arithmetic is done in the promoted width and truncated, as C++ does.

* `Encodes marker v bs`: the bytes `bs` are `v` in this format; both writers produce it
  (`writeLoop_encodes`, `unsignedLoop_encodes`).
* `read_reads`, `stage_handles`: the loop and the unrolled readers undo it.
* `read_undoes_write`: every typed write, and every sequence of them, is read back.
-/

namespace DartSdk.Vm.Datastream

open DartSdk.Codec DartSdk.Bits List Reads
open BitVec (ofInt ofNat)

/-- `uint8_t`. -/
abbrev Byte := BitVec 8

def kDataBitsPerByte : ℕ := 7
def kByteMask : ℤ := 2 ^ kDataBitsPerByte - 1
def kMaxUnsignedDataPerByte : ℤ := kByteMask
def kMinDataPerByte : ℤ := -2 ^ (kDataBitsPerByte - 1)
/-- `~kMinDataPerByte & kByteMask`. -/
def kMaxDataPerByte : ℤ := (-kMinDataPerByte - 1) % (kByteMask + 1)
def kEndByteMarker : ℤ := 255 - kMaxDataPerByte
def kEndUnsignedByteMarker : ℤ := 255 - kMaxUnsignedDataPerByte

/-! ## Writing -/

/-- A `WriteStream`: the bytes up to `current_`, and the sizes that drive the growth of the buffer. -/
structure WriteStream where
  buffer : List Byte
  currentSize : ℕ
  initialSize : ℕ
deriving DecidableEq

namespace WriteStream

def bytesWritten (st : WriteStream) : ℕ := st.buffer.length

/-- `Utils::RoundUp`: `(x + n - 1) & -n`. -/
def roundUp (x n : ℕ) : ℕ := (ofNat 64 (x + n) - 1 &&& -ofNat 64 n).toNat

/-- Grows the buffer; the bytes written so far are kept by the reallocation. -/
def resize (sizeNeeded : ℕ) (st : WriteStream) : WriteStream :=
  let incrementSize :=
    if sizeNeeded > st.currentSize then roundUp sizeNeeded st.initialSize else st.currentSize
  { st with currentSize := st.currentSize + incrementSize }

def writeByte (value : Byte) (st : WriteStream) : WriteStream :=
  let st := if st.bytesWritten ≥ st.currentSize then st.resize 1 else st
  { st with buffer := st.buffer ++ [value] }

def writeBytes (bs : List Byte) (st : WriteStream) : WriteStream :=
  let st := if st.currentSize - st.bytesWritten < bs.length then st.resize bs.length else st
  { st with buffer := st.buffer ++ bs }

end WriteStream

section

variable (m : ℤ) {N : ℕ} (endByteMarker : ℤ) (s : ℕ) (k : BitVec N → Reader Byte (BitVec N))
  (r : BitVec N)

theorem natAbs_shiftRight_lt {v : ℤ} (h : v < -1 ∨ 0 < v) : (v >>> kDataBitsPerByte).natAbs < v.natAbs := by
  rw [Int.shiftRight_eq_div_pow]
  simp only [kDataBitsPerByte]
  omega

/-- The loop of `WriteStream::Write`. -/
def writeLoop (v : ℤ) (st : WriteStream) : WriteStream :=
  if v < kMinDataPerByte ∨ kMaxDataPerByte < v then
    writeLoop (v >>> kDataBitsPerByte) (st.writeByte (ofInt 8 (v % (kByteMask + 1))))
  else st.writeByte (ofInt 8 (v + kEndByteMarker))
termination_by v.natAbs
decreasing_by
  rename_i h
  simp only [kMinDataPerByte, kMaxDataPerByte, kByteMask, kDataBitsPerByte] at h
  exact natAbs_shiftRight_lt (by omega)

/-- `WriteStream::Write<intN_t>`. -/
def write (value : BitVec N) (st : WriteStream) : WriteStream := writeLoop value.toInt st

/-- The loop of `WriteStream::WriteUnsigned`. -/
def unsignedLoop (v : ℤ) (st : WriteStream) : WriteStream :=
  if kMaxUnsignedDataPerByte < v then
    unsignedLoop (v >>> kDataBitsPerByte) (st.writeByte (ofInt 8 (v % (kByteMask + 1))))
  else st.writeByte (ofInt 8 (v + kEndUnsignedByteMarker))
termination_by v.natAbs
decreasing_by
  rename_i h
  simp only [kMaxUnsignedDataPerByte, kByteMask, kDataBitsPerByte] at h
  exact natAbs_shiftRight_lt (by omega)

def writeUnsigned (value : BitVec 64) (st : WriteStream) : WriteStream := unsignedLoop value.toInt st

/-! ## Reading -/

/-- The width in which C++ evaluates an operator on an `N`-bit operand. -/
def promoted (N : ℕ) : ℕ := max 32 N

/-- `r | (x << s)` on an `N`-bit `r`, evaluated in the promoted width and truncated. -/
def orShl (x : BitVec (promoted N)) (s : ℕ) : BitVec N :=
  (r.signExtend (promoted N) ||| x <<< s).setWidth N

/-- `r |= static_cast<T>(b) << s`. -/
def accumulate (b : Byte) : BitVec N :=
  orShl r (b.setWidth (promoted N)) s

/-- `r | ((static_cast<T>(b) - end_byte_marker) << s)`. -/
def finish (b : Byte) : BitVec N :=
  orShl r (b.setWidth (promoted N) - ofInt (promoted N) endByteMarker) s

/-- `static_cast<T>(b) - end_byte_marker`, the value of a number of one byte. -/
def single (N : ℕ) (endByteMarker : ℤ) (b : Byte) : BitVec N :=
  (b.setWidth (promoted N) - ofInt (promoted N) endByteMarker).setWidth N

/-- Does the byte end a number? -/
def isEnd (b : Byte) : Prop := kMaxUnsignedDataPerByte < b.toNat

instance (b : Byte) : Decidable (isEnd b) := inferInstanceAs (Decidable (_ < _))

/-- The `do … while` loop of `Read<T>`, entered with a continuation byte `b`. -/
def readLoop {N : ℕ} (endByteMarker : ℤ) (s : ℕ) (r : BitVec N) (b : Byte) (c : Cursor Byte) :
    Option (BitVec N × Cursor Byte) :=
  match h : c.data[c.pos]? with
  | none => none
  | some b' =>
    if isEnd b' then
      some (finish endByteMarker (s + kDataBitsPerByte) (accumulate s r b) b', ⟨c.data, c.pos + 1⟩)
    else readLoop endByteMarker (s + kDataBitsPerByte) (accumulate s r b) b' ⟨c.data, c.pos + 1⟩
termination_by c.data.length - c.pos
decreasing_by
  obtain ⟨hlt, -⟩ := List.getElem?_eq_some_iff.mp h
  omega

/-- `ReadStream::Read<T>`. -/
def read (N : ℕ) (endByteMarker : ℤ) : Reader Byte (BitVec N) := do
  let b ← next
  if isEnd b then pure (single N endByteMarker b)
  else readLoop endByteMarker 0 0 b

/-- One step of an unrolled reader: end here, or go on with the byte accumulated at `s`. -/
def stage : Reader Byte (BitVec N) := do
  let b ← next
  if isEnd b then pure (finish endByteMarker s r b) else k (accumulate s r b)

/-- The last step of an unrolled reader, where the byte is asserted to end the number. -/
def lastStage : Reader Byte (BitVec N) := do
  let b ← next
  pure (finish endByteMarker s r b)

/-- The first step of an unrolled reader. -/
def firstStage (N : ℕ) (endByteMarker : ℤ) (k : BitVec N → Reader Byte (BitVec N)) :
    Reader Byte (BitVec N) := do
  let b ← next
  if isEnd b then pure (single N endByteMarker b) else k (accumulate 0 0 b)

def read16 : Reader Byte (BitVec 16) :=
  firstStage 16 m (stage m 7 (lastStage m 14))

def read32 : Reader Byte (BitVec 32) :=
  firstStage 32 m (stage m 7 (stage m 14 (stage m 21 (lastStage m 28))))

def read64 : Reader Byte (BitVec 64) :=
  firstStage 64 m (stage m 7 (stage m 14 (stage m 21 (stage m 28 (stage m 35 (stage m 42
    (stage m 49 (stage m 56 (lastStage m 63)))))))))

end

def readUnsigned : Reader Byte (BitVec 64) := read 64 kEndUnsignedByteMarker

/-- `ReadStream::ReadBytes`. -/
def readBytes : ℕ → Reader Byte (List Byte)
  | 0 => pure []
  | len + 1 => do
    let b ← next
    let bs ← readBytes len
    pure (b :: bs)

/-! ## The format -/

/-- The bytes `bs` are the value `v` in the format with the given end marker. -/
inductive Encodes (marker : ℤ) : ℤ → List Byte → Prop
  | last {v : ℤ} : 128 ≤ v + marker → v + marker ≤ 255 →
      Encodes marker v [ofInt 8 (v + marker)]
  | more {v : ℤ} {bs : List Byte} : Encodes marker (v >>> kDataBitsPerByte) bs →
      Encodes marker v (ofInt 8 (v % (kByteMask + 1)) :: bs)

theorem writeByte_buffer (b : Byte) (st : WriteStream) :
    (st.writeByte b).buffer = st.buffer ++ [b] := by
  unfold WriteStream.writeByte WriteStream.resize
  split_ifs <;> rfl

theorem writeBytes_buffer (bs : List Byte) (st : WriteStream) :
    (st.writeBytes bs).buffer = st.buffer ++ bs := by
  unfold WriteStream.writeBytes WriteStream.resize
  split_ifs <;> rfl

/-- The signed writer emits its value in the signed format; `k` groups hold `7 * k` bits. -/
theorem writeLoop_encodes (v : ℤ) (st : WriteStream) :
    ∃ bs, (writeLoop v st).buffer = st.buffer ++ bs ∧ Encodes kEndByteMarker v bs ∧
      ∀ k : ℕ, -2 ^ (7 * k + 6) ≤ v → v < 2 ^ (7 * k + 6) → bs.length ≤ k + 1 := by
  induction v, st using writeLoop.induct with
  | case1 v st hv ih =>
    obtain ⟨bs, h1, h2, h3⟩ := ih
    refine ⟨_ :: bs, ?_, .more h2, ?_⟩
    · rw [writeLoop, if_pos hv, h1, writeByte_buffer, append_assoc, singleton_append]
    · intro k hlo hhi
      have hv' : v < -64 ∨ 63 < v := hv
      rw [Int.shiftRight_eq_div_pow] at h3
      simp only [kDataBitsPerByte] at h3
      cases k with
      | zero => omega
      | succ k =>
        have e : (2 : ℤ) ^ (7 * (k + 1) + 6) = 2 ^ (7 * k + 6) * 128 := by ring
        have := h3 k (by omega) (by omega)
        simp only [length_cons]
        omega
  | case2 v st hv =>
    have hv' : ¬(v < -64 ∨ 63 < v) := hv
    refine ⟨[_], by rw [writeLoop, if_neg hv, writeByte_buffer], .last ?_ ?_, fun k _ _ => by simp⟩
    · show 128 ≤ v + 192
      omega
    · show v + 192 ≤ 255
      omega

theorem unsignedLoop_encodes (v : ℤ) (st : WriteStream) (h0 : 0 ≤ v) :
    ∃ bs, (unsignedLoop v st).buffer = st.buffer ++ bs ∧ Encodes kEndUnsignedByteMarker v bs := by
  induction v, st using unsignedLoop.induct with
  | case1 v st hv ih =>
    obtain ⟨bs, h1, h2⟩ := ih (by rw [Int.shiftRight_eq_div_pow]; positivity)
    refine ⟨_ :: bs, ?_, .more h2⟩
    rw [unsignedLoop, if_pos hv, h1, writeByte_buffer, append_assoc, singleton_append]
  | case2 v st hv =>
    have hv' : ¬127 < v := hv
    refine ⟨[_], by rw [unsignedLoop, if_neg hv, writeByte_buffer], .last ?_ ?_⟩
    · show 128 ≤ v + 128
      omega
    · show v + 128 ≤ 255
      omega

/-! ## The readers undo the format -/

section Readers

variable {N : ℕ} {marker : ℤ}
  {s r : ℕ} {v : ℤ} {bs : List Byte} {k : BitVec N → Reader Byte (BitVec N)}

theorem setWidth_signExtend (r : BitVec N) : (r.signExtend (promoted N)).setWidth N = r := by
  have hN : N ≤ promoted N := le_max_right _ _
  apply BitVec.eq_of_getLsbD_eq
  intro i hi
  have hiW : i < promoted N := by omega
  simp only [BitVec.getLsbD_setWidth, BitVec.getLsbD_signExtend, hi, hiW, decide_true,
    Bool.true_and, if_true]

theorem orShl_ofInt (hr : r < 2 ^ s) (x : ℤ) :
    orShl (ofNat N r) (ofInt (promoted N) x) s = ofInt N (r + x * 2 ^ s) := by
  have hN : N ≤ promoted N := le_max_right _ _
  unfold orShl
  rw [BitVec.setWidth_or, BitVec.setWidth_shiftLeft_of_le hN, setWidth_ofInt hN,
    ← ofNat_or_shiftLeft hr, setWidth_signExtend]

theorem toNat_ofInt_byte {x : ℤ} (h0 : 0 ≤ x) (h1 : x ≤ 255) :
    ((ofInt 8 x).toNat : ℤ) = x := by
  rw [BitVec.toNat_ofInt]
  omega

theorem setWidth_byte (b : Byte) (W : ℕ) : b.setWidth W = ofInt W b.toNat := by
  rw [BitVec.ofInt_natCast, BitVec.ofNat_toNat]

theorem accumulate_ofNat (hr : r < 2 ^ s) (b : Byte) :
    accumulate s (ofNat N r) b = ofNat N (r + b.toNat * 2 ^ s) := by
  unfold accumulate
  rw [setWidth_byte, orShl_ofInt hr, ← BitVec.ofInt_natCast]
  push_cast
  rfl

variable (h0 : 128 ≤ v + marker) (h1 : v + marker ≤ 255)

include h0 h1

theorem ofInt_sub_marker (W : ℕ) :
    (ofInt 8 (v + marker)).setWidth W - ofInt W marker = ofInt W v := by
  rw [setWidth_byte, toNat_ofInt_byte (by omega) h1, BitVec.sub_eq_iff_eq_add, ← BitVec.ofInt_add]

theorem finish_ofNat (hr : r < 2 ^ s) :
    finish marker s (ofNat N r) (ofInt 8 (v + marker)) = ofInt N (r + v * 2 ^ s) := by
  unfold finish
  rw [ofInt_sub_marker h0 h1, orShl_ofInt hr]

theorem isEnd_last : isEnd (ofInt 8 (v + marker)) := by
  show 127 < _
  rw [toNat_ofInt_byte (by omega) h1]
  omega

omit h0 h1

theorem toNat_group (v : ℤ) :
    ((ofInt 8 (v % (kByteMask + 1))).toNat : ℤ) = v % 128 := by
  show ((ofInt 8 (v % 128)).toNat : ℤ) = v % 128
  rw [toNat_ofInt_byte (by omega) (by omega)]

theorem not_isEnd_group (v : ℤ) : ¬ isEnd (ofInt 8 (v % (kByteMask + 1))) := by
  show ¬127 < _
  rw [toNat_group]
  omega

theorem group_add_rest (v : ℤ) (s : ℕ) :
    ((ofInt 8 (v % (kByteMask + 1))).toNat : ℤ) * 2 ^ s +
      (v >>> kDataBitsPerByte) * 2 ^ (s + 7) = v * 2 ^ s := by
  rw [toNat_group, Int.shiftRight_eq_div_pow]
  have h := Int.emod_add_mul_ediv v 128
  calc v % 128 * 2 ^ s + v / ((2 ^ 7 : ℕ) : ℤ) * 2 ^ (s + 7)
      = (v % 128 + 128 * (v / 128)) * 2 ^ s := by push_cast; ring
    _ = v * 2 ^ s := by rw [h]

theorem add_group_lt (hr : r < 2 ^ s) (v : ℤ) :
    r + (ofInt 8 (v % (kByteMask + 1))).toNat * 2 ^ s < 2 ^ (s + 7) := by
  have h := toNat_group v
  have h7 : (ofInt 8 (v % (kByteMask + 1))).toNat + 1 ≤ 128 := by omega
  have h8 := Nat.mul_le_mul_right (2 ^ s) h7
  rw [Nat.add_mul] at h8
  rw [pow_add]
  omega

theorem single_eq (b : Byte) : single N marker b = finish marker 0 0 b := by
  simp [single, finish, orShl, setWidth_signExtend]

/-- The loop of `Read<T>` where it takes its next byte. -/
def loopStage (marker : ℤ) (s : ℕ) (r : BitVec N) : Reader Byte (BitVec N) := do
  let b ← next
  if isEnd b then pure (finish marker s r b) else readLoop marker s r b

theorem readLoop_eq (s : ℕ) (r : BitVec N) (b : Byte) :
    readLoop marker s r b = loopStage marker (s + kDataBitsPerByte) (accumulate s r b) := by
  funext c
  rw [readLoop, loopStage, bind_apply]
  split
  · rename_i h
    rw [next_eq_none h]
    rfl
  · rename_i b' h
    rw [next_eq_some h, Option.bind_some]
    split_ifs <;> rfl

/-- `k`, started with an accumulator of the bits below `s`, reads every number of at most `n`
bytes. -/
def Handles (marker : ℤ) (s n : ℕ) (k : BitVec N → Reader Byte (BitVec N)) : Prop :=
  ∀ ⦃v : ℤ⦄ ⦃bs : List Byte⦄ ⦃r : ℕ⦄, Encodes marker v bs → bs.length ≤ n → r < 2 ^ s →
    Reads (k (ofNat N r)) bs (ofInt N (r + v * 2 ^ s))

theorem encodes_ne_nil (h : Encodes marker v bs) : bs ≠ [] := by
  cases h <;> simp

theorem lastStage_handles (s : ℕ) : Handles (N := N) marker s 1 (lastStage marker s) := by
  intro v bs r h hl hr
  cases h with
  | last h0 h1 =>
    apply next_bind
    rw [finish_ofNat h0 h1 hr]
    exact pure _
  | more h =>
    have hp := length_pos_iff.mpr (encodes_ne_nil h)
    simp only [length_cons] at hl
    omega

theorem stage_handles {n : ℕ}
    (hk : Handles marker (s + 7) n k) : Handles marker s (n + 1) (stage marker s k) := by
  intro v bs r h hl hr
  cases h with
  | last h0 h1 =>
    apply next_bind
    rw [if_pos (isEnd_last h0 h1), finish_ofNat h0 h1 hr]
    exact pure _
  | more h =>
    apply next_bind
    rw [if_neg (not_isEnd_group v), accumulate_ofNat hr]
    have hi := hk h (by simpa using hl) (add_group_lt hr v)
    push_cast at hi
    rw [add_assoc, group_add_rest v s] at hi
    exact hi

/-- **The loop** is a stage with the loop behind it. -/
theorem loopStage_handles (n s : ℕ) : Handles (N := N) marker s n (loopStage marker s) := by
  induction n generalizing s with
  | zero =>
    intro v bs r h hl _
    exact absurd (length_eq_zero_iff.mp (Nat.le_zero.mp hl)) (encodes_ne_nil h)
  | succ n ih =>
    have heq : loopStage (N := N) marker s = stage marker s (loopStage marker (s + 7)) := by
      funext r
      unfold stage
      rw [loopStage]
      simp only [readLoop_eq]
      rfl
    rw [heq]
    exact stage_handles (ih (s + 7))

variable (h : Encodes marker v bs)

include h

theorem Handles.reads {n : ℕ} (hk : Handles marker 0 n k) (hl : bs.length ≤ n) :
    Reads (k 0) bs (ofInt N v) := by
  simpa using hk h hl (r := 0) Nat.one_pos

theorem read_reads : Reads (read N marker) bs (ofInt N v) := by
  have heq : read N marker = loopStage marker 0 0 := by
    unfold read loopStage
    simp only [single_eq]
  rw [heq]
  exact Handles.reads h (loopStage_handles bs.length 0) (Nat.le_refl _)

theorem firstStage_reads {n : ℕ} (hk : Handles marker 7 n k) (hl : bs.length ≤ n + 1) :
    Reads (firstStage N marker k) bs (ofInt N v) := by
  have heq : firstStage N marker k = stage marker 0 k 0 := by
    unfold firstStage stage
    simp only [single_eq]
  rw [heq]
  exact Handles.reads h (stage_handles hk) hl

theorem read16_reads (hl : bs.length ≤ 3) : Reads (read16 marker) bs (ofInt 16 v) :=
  firstStage_reads h (stage_handles (lastStage_handles 14)) hl

theorem read32_reads (hl : bs.length ≤ 5) : Reads (read32 marker) bs (ofInt 32 v) :=
  firstStage_reads h (stage_handles (stage_handles (stage_handles (lastStage_handles 28)))) hl

theorem read64_reads (hl : bs.length ≤ 10) : Reads (read64 marker) bs (ofInt 64 v) :=
  firstStage_reads h (stage_handles (stage_handles (stage_handles (stage_handles (stage_handles
    (stage_handles (stage_handles (stage_handles (lastStage_handles 63))))))))) hl

omit h

theorem stage_forward {r : BitVec N}
    (hk : ∀ r, Forward 1 (k r)) : Forward 1 (stage marker s k r) := by
  refine Forward.next_bind (fun b => ?_)
  split_ifs
  · exact Forward.pure _
  · exact (hk _).mono (Nat.zero_le _)

theorem read64_forward : Forward 1 (read64 marker) := by
  refine Forward.next_bind (fun b => ?_)
  split_ifs
  · exact Forward.pure _
  · refine Forward.mono (n := 1) ?_ (Nat.zero_le _)
    refine stage_forward (fun _ => stage_forward (fun _ => stage_forward (fun _ => ?_)))
    refine stage_forward (fun _ => stage_forward (fun _ => stage_forward (fun _ => ?_)))
    exact stage_forward (fun _ => stage_forward (fun _ => Forward.next_bind (fun _ => .pure _)))

end Readers

/-! ## Typed streams -/

/-- What the typed writes write: the `Raw<n, T>` classes, `WriteUnsigned` and `WriteBytes`. -/
inductive Item
  | raw1 (v : BitVec 8)
  | raw2 (v : BitVec 16)
  | raw4 (v : BitVec 32)
  | raw8 (v : BitVec 64)
  | unsigned (v : BitVec 64)
  | bytes (bs : List Byte)
deriving DecidableEq

/-- The type of an item, all that a reader knows in advance. -/
inductive Tag
  | raw1
  | raw2
  | raw4
  | raw8
  | unsigned
  | bytes (len : ℕ)
deriving DecidableEq

namespace Item

def tag : Item → Tag
  | raw1 _ => .raw1
  | raw2 _ => .raw2
  | raw4 _ => .raw4
  | raw8 _ => .raw8
  | unsigned _ => .unsigned
  | bytes bs => .bytes bs.length

/-- The assertion of `WriteUnsigned`: `0 <= value <= kIntptrMax`. -/
def Valid : Item → Prop
  | unsigned v => 0 ≤ v.toInt
  | _ => True

instance (i : Item) : Decidable i.Valid := by
  cases i <;> unfold Valid <;> infer_instance

def write : Item → WriteStream → WriteStream
  | raw1 v => WriteStream.writeByte v
  | raw2 v => Datastream.write v
  | raw4 v => Datastream.write v
  | raw8 v => Datastream.write v
  | unsigned v => writeUnsigned v
  | bytes bs => WriteStream.writeBytes bs

end Item

def Tag.read : Tag → Reader Byte Item
  | raw1 => do let v ← next; pure (.raw1 v)
  | raw2 => do let v ← read16 kEndByteMarker; pure (.raw2 v)
  | raw4 => do let v ← read32 kEndByteMarker; pure (.raw4 v)
  | raw8 => do let v ← read64 kEndByteMarker; pure (.raw8 v)
  | unsigned => do let v ← readUnsigned; pure (.unsigned v)
  | bytes len => do let bs ← readBytes len; pure (.bytes bs)

def writeItems (items : List Item) (st : WriteStream) : WriteStream :=
  items.foldl (fun st i => i.write st) st

def readItems : List Tag → Reader Byte (List Item)
  | [] => pure []
  | t :: ts => do
    let i ← t.read
    let is ← readItems ts
    pure (i :: is)

/-- Whatever was written before and whatever follows, `m` started where `w` started writing returns
`a` and stops where `w` stopped. -/
def ReadBack {α : Type} (w : WriteStream → WriteStream) (m : Reader Byte α) (a : α) : Prop :=
  ∀ (st : WriteStream) (post : List Byte),
    m ⟨(w st).buffer ++ post, st.bytesWritten⟩ =
      some (a, ⟨(w st).buffer ++ post, (w st).bytesWritten⟩)

/-- A writer appends bytes that `m` reads. -/
def Undoes {α : Type} (m : Reader Byte α) (w : WriteStream → WriteStream) (a : α) : Prop :=
  ∀ st, ∃ bs, (w st).buffer = st.buffer ++ bs ∧ Reads m bs a

variable {α : Type} {w : WriteStream → WriteStream} {m : Reader Byte α} {a : α}

theorem Undoes.map {β : Type} (h : Undoes m w a) (f : α → β) :
    Undoes (do let x ← m; pure (f x)) w (f a) :=
  fun st => (h st).imp fun _ h => ⟨h.1, h.2.map f⟩

theorem Undoes.readBack (h : Undoes m w a) : ReadBack w m a := by
  intro st post
  obtain ⟨bs, hb, hr⟩ := h st
  have h1 := hr st.buffer post
  unfold WriteStream.bytesWritten
  rw [hb, append_assoc, h1, length_append]

/-- Every signed write is in the signed format, with as many bytes as its width needs. -/
theorem write_reads {N k : ℕ} {m : Reader Byte (BitVec N)} (hk : N ≤ 7 * k + 7)
    (hm : ∀ {v bs}, Encodes kEndByteMarker v bs → bs.length ≤ k + 1 → Reads m bs (ofInt N v))
    (v : BitVec N) : Undoes m (write v) v := by
  intro st
  obtain ⟨bs, h1, h2, h3⟩ := writeLoop_encodes v.toInt st
  have hp : (2 : ℤ) ^ (N - 1) ≤ 2 ^ (7 * k + 6) := by
    exact_mod_cast Nat.pow_le_pow_right (by omega) (by omega)
  have hlo := BitVec.le_toInt v
  have hhi := BitVec.toInt_lt (x := v)
  have h4 := hm h2 (h3 k (by omega) (by omega))
  rw [BitVec.ofInt_toInt] at h4
  exact ⟨bs, h1, h4⟩

theorem write16_reads (v : BitVec 16) : Undoes (read16 kEndByteMarker) (write v) v :=
  write_reads (k := 2) (by omega) read16_reads v

theorem write32_reads (v : BitVec 32) : Undoes (read32 kEndByteMarker) (write v) v :=
  write_reads (k := 4) (by omega) read32_reads v

theorem write64_reads (v : BitVec 64) : Undoes (read64 kEndByteMarker) (write v) v :=
  write_reads (k := 9) (by omega) read64_reads v

theorem unsigned_reads {v : BitVec 64} (hv : 0 ≤ v.toInt) :
    Undoes readUnsigned (writeUnsigned v) v := by
  intro st
  obtain ⟨bs, h1, h2⟩ := unsignedLoop_encodes v.toInt st hv
  have h3 := read_reads (N := 64) h2
  rw [BitVec.ofInt_toInt] at h3
  exact ⟨bs, h1, h3⟩

theorem readBytes_reads (bs : List Byte) : Reads (readBytes bs.length) bs bs := by
  induction bs with
  | nil => exact pure _
  | cons b bs ih => exact next_bind (ih.map _)

theorem item_reads (i : Item) (hi : i.Valid) : Undoes i.tag.read i.write i := by
  cases i with
  | raw1 v => exact fun st => ⟨[v], writeByte_buffer v st, (next v).map _⟩
  | raw2 v => exact (write16_reads v).map _
  | raw4 v => exact (write32_reads v).map _
  | raw8 v => exact (write64_reads v).map _
  | unsigned v => exact (unsigned_reads hi).map _
  | bytes bs => exact fun st => ⟨bs, writeBytes_buffer bs st, (readBytes_reads bs).map _⟩

theorem items_reads (items : List Item) (hv : ∀ i ∈ items, i.Valid) :
    Undoes (readItems (items.map Item.tag)) (writeItems items) items := by
  intro st
  induction items generalizing st with
  | nil => exact ⟨[], by simp [writeItems], pure _⟩
  | cons i items ih =>
    obtain ⟨bs, h1, h2⟩ := item_reads i (hv i (by simp)) st
    obtain ⟨bs', h3, h4⟩ := ih (fun j hj => hv j (by simp [hj])) (i.write st)
    refine ⟨bs ++ bs', ?_, h2.bind (h4.map _)⟩
    show (writeItems items (i.write st)).buffer = _
    rw [h3, h1, append_assoc]

theorem read_readBack {N : ℕ} (v : BitVec N) : ReadBack (write v) (read N kEndByteMarker) v :=
  (write_reads (k := N) (by omega) (fun h _ => read_reads h) v).readBack

/-- **Round trip.**  `ReadN` and `Read<intN_t>` undo `Write<intN_t>` for `N = 16, 32, 64`,
`ReadUnsigned` undoes `WriteUnsigned`, and a sequence of typed writes is read back by the matching
typed reads; the read position ends exactly behind the bytes written. -/
theorem read_undoes_write :
    (∀ v : BitVec 16, ReadBack (write v) (read16 kEndByteMarker) v ∧
      ReadBack (write v) (read 16 kEndByteMarker) v) ∧
    (∀ v : BitVec 32, ReadBack (write v) (read32 kEndByteMarker) v ∧
      ReadBack (write v) (read 32 kEndByteMarker) v) ∧
    (∀ v : BitVec 64, ReadBack (write v) (read64 kEndByteMarker) v ∧
      ReadBack (write v) (read 64 kEndByteMarker) v) ∧
    (∀ v : BitVec 64, 0 ≤ v.toInt → ReadBack (writeUnsigned v) readUnsigned v) ∧
    (∀ items : List Item, (∀ i ∈ items, i.Valid) →
      ReadBack (writeItems items) (readItems (items.map Item.tag)) items) := by
  exact ⟨fun v => ⟨(write16_reads v).readBack, read_readBack v⟩,
    fun v => ⟨(write32_reads v).readBack, read_readBack v⟩,
    fun v => ⟨(write64_reads v).readBack, read_readBack v⟩,
    fun v hv => (unsigned_reads hv).readBack, fun items hv => (items_reads items hv).readBack⟩

theorem read_undoes_write_kIntptrMax :
    ReadBack (writeUnsigned 0x7fffffffffffffff#64) readUnsigned 0x7fffffffffffffff#64 ∧
    ReadBack (writeItems [.raw2 0x8000#16, .unsigned 300#64, .bytes [1#8, 200#8]])
      (readItems [.raw2, .unsigned, .bytes 2])
      [.raw2 0x8000#16, .unsigned 300#64, .bytes [1#8, 200#8]] :=
  ⟨read_undoes_write.2.2.2.1 _ (by decide), read_undoes_write.2.2.2.2 _ (by decide)⟩

end DartSdk.Vm.Datastream
