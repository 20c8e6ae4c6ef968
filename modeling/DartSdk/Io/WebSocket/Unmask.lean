import DartSdk.Io.WebSocket

/-!
# Unmasking

A payload is masked with a key of four bytes that is repeated.  `_unmask` goes through a block of it at
any place of a buffer, byte by byte up to a multiple of sixteen and at the end, and in lanes of
thirty-two bits between.

* `unmask_spec`: **whatever the alignment, the bytes are unmasked one by one**, and the next block goes
  on with the right byte of the key;
* `takePayload_spec`, `takePayloads_unmasked`: what a block adds to the payload, and what all the blocks
  of a payload do.  A list that is a view into a larger buffer is read at the wrong place.
-/

namespace DartSdk.Io.WebSocket

open List

section Masking

/-- Bytes masked with the repeated key, from its byte `i` on. -/
@[simp]
def maskFrom (key : List UInt8) (i : ℕ) : List UInt8 → List UInt8
  | [] => []
  | byte :: bytes => (byte ^^^ key.getD (i % 4) 0) :: maskFrom key (i + 1) bytes

variable (key : List UInt8)

@[simp] theorem length_maskFrom (i : ℕ) (bytes : List UInt8) :
    (maskFrom key i bytes).length = bytes.length := by
  induction bytes generalizing i with
  | nil => rfl
  | cons _ bytes ih => rw [maskFrom, length_cons, ih, length_cons]

theorem maskFrom_append (i : ℕ) (bytes bytes' : List UInt8) :
    maskFrom key i (bytes ++ bytes') =
      maskFrom key i bytes ++ maskFrom key (i + bytes.length) bytes' := by
  induction bytes generalizing i with
  | nil => rfl
  | cons _ bytes ih =>
    rw [cons_append, maskFrom, maskFrom, ih, cons_append, length_cons, Nat.add_assoc,
      Nat.add_comm 1]

theorem maskFrom_congr {i j : ℕ} (h : i % 4 = j % 4) (bytes : List UInt8) :
    maskFrom key i bytes = maskFrom key j bytes := by
  induction bytes generalizing i j with
  | nil => rfl
  | cons _ bytes ih => rw [maskFrom, maskFrom, h, ih (j := j + 1) (by omega)]

theorem maskFrom_take (i n : ℕ) (bytes : List UInt8) :
    (maskFrom key i bytes).take n = maskFrom key i (bytes.take n) := by
  induction n generalizing i bytes with
  | zero => rfl
  | succ n ih =>
    cases bytes with
    | nil => rfl
    | cons _ bytes => rw [maskFrom, take_succ_cons, ih, take_succ_cons, maskFrom]

theorem maskFrom_drop (i n : ℕ) (bytes : List UInt8) :
    (maskFrom key i bytes).drop n = maskFrom key (i + n) (bytes.drop n) := by
  induction n generalizing i bytes with
  | zero => rfl
  | succ n ih =>
    cases bytes with
    | nil => rfl
    | cons _ bytes =>
      rw [maskFrom, drop_succ_cons, ih, drop_succ_cons, Nat.add_assoc, Nat.add_comm 1]

theorem maskFrom_maskFrom (i : ℕ) (bytes : List UInt8) :
    maskFrom key i (maskFrom key i bytes) = bytes := by
  induction bytes generalizing i with
  | nil => rfl
  | cons _ bytes ih =>
    rw [maskFrom, maskFrom, ih, UInt8.xor_assoc, UInt8.xor_self, UInt8.xor_zero]

end Masking

section Unmask

variable (s : Transformer) (n : ℕ)

variable (m : ℕ) (before region after : List UInt8)

theorem modify_append {before after : List UInt8} {byte : UInt8} {f : UInt8 → UInt8} {i : ℕ}
    (hi : i = before.length) : (before ++ byte :: after).modify i f = before ++ f byte :: after := by
  subst hi
  induction before with
  | nil => rfl
  | cons x before ih => exact congrArg (x :: ·) ih

theorem unmaskBytes_spec :
    unmaskBytes s ⟨before ++ region ++ after, 0, n⟩ before.length region.length =
      ({ s with unmaskingIndex := s.unmaskingIndex + region.length },
        ⟨before ++ maskFrom s.maskingBytes s.unmaskingIndex region ++ after, 0, n⟩) := by
  induction region generalizing s before with
  | nil => rfl
  | cons byte region ih =>
    have hx : Uint8List.xor ⟨before ++ byte :: region ++ after, 0, n⟩ before.length
        (maskingByte s s.unmaskingIndex) =
          ⟨before ++ [byte ^^^ maskingByte s s.unmaskingIndex] ++ region ++ after, 0, n⟩ := by
      rw [Uint8List.xor, append_assoc, cons_append, modify_append (Nat.zero_add _)]
      simp
    have hn := ih { s with unmaskingIndex := s.unmaskingIndex + 1 }
      (before ++ [byte ^^^ maskingByte s s.unmaskingIndex])
    rw [length_append, length_singleton] at hn
    rw [length_cons, unmaskBytes, hx, hn, maskFrom]
    simp [maskingByte, Nat.add_comm, Nat.add_left_comm]

theorem ofNat_mul_add (byte : UInt8) : UInt8.ofNat (m * 256 + byte.toNat) = byte := by
  apply UInt8.toNat.inj
  have := byte.toNat_lt
  rw [UInt8.toNat_ofNat']
  omega

theorem mul_add_div (byte : UInt8) : (m * 256 + byte.toNat) / 256 = m := by
  have := byte.toNat_lt
  omega

theorem xorLane_spec (before after : List UInt8) (b₀ b₁ b₂ b₃ : UInt8) :
    xorLane (before ++ b₀ :: b₁ :: b₂ :: b₃ :: after) before.length (blockMask s) =
      before ++ maskFrom s.maskingBytes s.unmaskingIndex [b₀, b₁, b₂, b₃] ++ after := by
  rw [xorLane, modify_append rfl, append_cons, modify_append (by simp), append_cons,
    modify_append (by simp), append_cons, modify_append (by simp)]
  simp only [blockMask, ofNat_mul_add, mul_add_div, UInt8.ofNat_toNat, maskFrom, maskingByte]
  simp

theorem xorLanes_spec {lanes : ℕ} (hr : region.length = 4 * lanes) :
    xorLanes (before ++ region ++ after) before.length (blockMask s) lanes =
      before ++ maskFrom s.maskingBytes s.unmaskingIndex region ++ after := by
  induction lanes generalizing before region with
  | zero =>
    obtain rfl := length_eq_zero_iff.mp hr
    rfl
  | succ lanes ih =>
    obtain ⟨b₀, b₁, b₂, b₃, region, rfl⟩ : ∃ b₀ b₁ b₂ b₃ more, region = b₀ :: b₁ :: b₂ :: b₃ :: more := by
      match region, hr with
      | b₀ :: b₁ :: b₂ :: b₃ :: more, _ => exact ⟨b₀, b₁, b₂, b₃, more, rfl⟩
    have hn := ih (before ++ maskFrom s.maskingBytes s.unmaskingIndex [b₀, b₁, b₂, b₃]) region
      (by simp at hr; omega)
    have hm : maskFrom s.maskingBytes s.unmaskingIndex (b₀ :: b₁ :: b₂ :: b₃ :: region) =
        maskFrom s.maskingBytes s.unmaskingIndex [b₀, b₁, b₂, b₃] ++
          maskFrom s.maskingBytes s.unmaskingIndex region := by
      rw [maskFrom_congr s.maskingBytes (j := s.unmaskingIndex + 4) (by omega) region]
      exact maskFrom_append s.maskingBytes s.unmaskingIndex [b₀, b₁, b₂, b₃] region
    rw [length_append, length_maskFrom] at hn
    rw [xorLanes, append_assoc, cons_append, cons_append, cons_append,
      cons_append, xorLane_spec, hm]
    simpa using hn

theorem unmask_spec : ∃ u, u % 4 = (s.unmaskingIndex + region.length) % 4 ∧
      unmask s before.length region.length ⟨before ++ region ++ after, 0, n⟩ =
        ({ s with unmaskingIndex := u },
          ⟨before ++ maskFrom s.maskingBytes s.unmaskingIndex region ++ after, 0, n⟩) := by
  by_cases hlong : 16 ≤ region.length
  · obtain ⟨start, hstart⟩ : ∃ start, start = 16 - before.length % 16 := ⟨_, rfl⟩
    obtain ⟨blocks, hblocks⟩ : ∃ blocks, blocks = (region.length - start) / 16 := ⟨_, rfl⟩
    -- the bytes before the blocks, the blocks and the bytes after them
    obtain ⟨r₁, r₂, r₃, rfl, h₁, h₂⟩ : ∃ r₁ r₂ r₃, region = r₁ ++ (r₂ ++ r₃) ∧ r₁.length = start ∧
        r₂.length = 4 * (4 * blocks) := by
      refine ⟨region.take start, (region.drop start).take (4 * (4 * blocks)),
        (region.drop start).drop (4 * (4 * blocks)), ?_, ?_, ?_⟩
      · rw [take_append_drop, take_append_drop]
      · rw [length_take]
        omega
      · rw [length_take, length_drop]
        omega
    have hl : (r₁ ++ (r₂ ++ r₃)).length = start + 4 * (4 * blocks) + r₃.length := by
      simp only [length_append]
      omega
    have hc : (r₁ ++ (r₂ ++ r₃)).length - start - blocks * 16 = r₃.length := by omega
    have hs : before ++ (r₁ ++ (r₂ ++ r₃)) ++ after = before ++ r₁ ++ (r₂ ++ (r₃ ++ after)) := by simp
    have ha := unmaskBytes_spec s n before r₁ (r₂ ++ (r₃ ++ after))
    have hb := xorLanes_spec { s with unmaskingIndex := s.unmaskingIndex + start }
      (before ++ maskFrom s.maskingBytes s.unmaskingIndex r₁) r₂ (r₃ ++ after) h₂
    have he := unmaskBytes_spec { s with unmaskingIndex := s.unmaskingIndex + start } n
      (before ++ maskFrom s.maskingBytes s.unmaskingIndex r₁ ++
        maskFrom s.maskingBytes (s.unmaskingIndex + start) r₂) r₃ after
    simp only [length_append, length_maskFrom, h₁, h₂] at ha hb he
    rw [append_assoc _ r₂] at hb
    rw [append_assoc _ r₃] at he
    refine ⟨s.unmaskingIndex + start + r₃.length, by omega, ?_⟩
    rw [unmask, if_pos hlong]
    dsimp only
    rw [← hstart, ← hblocks, hc, hs, ha]
    have hi : before.length + start + blocks * 16 = before.length + start + 4 * (4 * blocks) := by
      omega
    rw [hb, hi, he, maskFrom_append, maskFrom_append, h₁,
      maskFrom_congr s.maskingBytes (i := s.unmaskingIndex + start + r₂.length)
        (j := s.unmaskingIndex + start) (by omega) r₃]
    simp only [append_assoc]
  · exact ⟨_, rfl, (if_neg hlong).trans (unmaskBytes_spec s n before region after)⟩

end Unmask

section Payloads

/-- The payload branch of `add`, up to the end of the frame. -/
def takePayload (s : Transformer) (list : Uint8List) (index : ℕ) : Transformer × Uint8List :=
  let payloadLength := min (list.length - index) s.remainingPayloadBytes.toNat
  let s := { s with remainingPayloadBytes := s.remainingPayloadBytes - payloadLength }
  let unmasked := if s.masked then unmask s index payloadLength list else (s, list)
  let view := (unmasked.2.buffer.drop index).take payloadLength
  ({ unmasked.1 with payload := unmasked.1.payload ++ view }, unmasked.2)

/-- The blocks of a payload: lists, and the index where the payload is in each of them. -/
def takePayloads (s : Transformer) : List (Uint8List × ℕ) → Transformer × List Uint8List
  | [] => (s, [])
  | (list, index) :: blocks =>
    let first := takePayload s list index
    let rest := takePayloads first.1 blocks
    (rest.1, first.2 :: rest.2)

/-- What unmasking is for: the bytes of the payload in the blocks, from its byte `i` on, and the lists
with these bytes in their place. -/
def unmasked (key : List UInt8) (i remaining : ℕ) :
    List (Uint8List × ℕ) → List UInt8 × List Uint8List
  | [] => ([], [])
  | (list, index) :: blocks =>
    let start := list.offsetInBytes + index
    let n := min (list.length - index) remaining
    let bytes := maskFrom key i ((list.buffer.drop start).take n)
    let rest := unmasked key (i + n) (remaining - n) blocks
    (bytes ++ rest.1, { list with
      buffer := list.buffer.take start ++ bytes ++ list.buffer.drop (start + n) } :: rest.2)

variable {s : Transformer} {list : Uint8List} {index : ℕ}

theorem parsePayload_eq (decode : List UInt8 → Option DartString) :
    parsePayload decode s list index =
      (afterPayload decode (takePayload s list index).1, (takePayload s list index).2,
        index + min (list.length - index) s.remainingPayloadBytes.toNat) := rfl

/-- The bytes of a block, unmasked if they are masked. -/
def Transformer.reveal (s : Transformer) (bytes : List UInt8) : List UInt8 :=
  if s.masked then maskFrom s.maskingBytes s.unmaskingIndex bytes else bytes

theorem takePayload_spec (ho : list.offsetInBytes = 0) (hi : index ≤ list.length)
    (hln : list.length ≤ list.buffer.length) {n : ℕ}
    (hn : n = min (list.length - index) s.remainingPayloadBytes.toNat) {bytes : List UInt8}
    (hb : s.reveal ((list.buffer.drop index).take n) = bytes) :
    bytes.length = n ∧ ∃ u, (s.masked = true → u % 4 = (s.unmaskingIndex + n) % 4) ∧
      takePayload s list index =
        ({ s with
            remainingPayloadBytes := s.remainingPayloadBytes - n
            unmaskingIndex := u
            payload := s.payload ++ bytes },
          ⟨list.buffer.take index ++ bytes ++ list.buffer.drop (index + n), 0, list.length⟩) := by
  have hbf : (list.buffer.take index).length = index := by
    rw [length_take]
    omega
  have hr : ((list.buffer.drop index).take n).length = n := by
    rw [length_take, length_drop]
    omega
  have hl : list = ⟨list.buffer.take index ++ (list.buffer.drop index).take n ++
      list.buffer.drop (index + n), 0, list.length⟩ := by
    rw [append_assoc, ← drop_drop, take_append_drop, take_append_drop, ← ho]
  -- what is read at `index` is what has been written there
  have hv (h : bytes.length = n) :
      ((list.buffer.take index ++ bytes ++ list.buffer.drop (index + n)).drop index).take n = bytes := by
    rw [append_assoc, drop_left' hbf, take_left' h]
  unfold takePayload
  dsimp only
  rw [← hn]
  by_cases hmasked : s.masked
  · rw [Transformer.reveal, if_pos hmasked] at hb
    obtain ⟨u, hu, hun⟩ := unmask_spec
      { s with remainingPayloadBytes := s.remainingPayloadBytes - n } list.length
      (list.buffer.take index) ((list.buffer.drop index).take n) (list.buffer.drop (index + n))
    rw [hbf, hr, ← hl, hb] at hun
    rw [hr] at hu
    have hn' : bytes.length = n := by rw [← hb, length_maskFrom, hr]
    refine ⟨hn', u, fun _ => hu, ?_⟩
    rw [if_pos hmasked, hun]
    dsimp only
    rw [hv hn']
  · rw [Transformer.reveal, if_neg hmasked] at hb
    refine ⟨hb ▸ hr, s.unmaskingIndex, fun h => absurd h hmasked, ?_⟩
    rw [if_neg hmasked, hb]
    rw [hb] at hl
    dsimp only
    rw [← hl]

/-- **A payload is unmasked byte by byte**, in whatever blocks it comes. -/
theorem takePayloads_unmasked (s : Transformer) (blocks : List (Uint8List × ℕ)) {i : ℕ}
    (hmasked : s.masked = true) (hi : s.unmaskingIndex % 4 = i % 4)
    (hblocks : ∀ block ∈ blocks,
      block.2 ≤ block.1.length ∧ block.1.offsetInBytes + block.1.length ≤ block.1.buffer.length)
    (hoffset : ∀ block ∈ blocks, block.1.offsetInBytes = 0) :
    (takePayloads s blocks).1.payload =
        s.payload ++ (unmasked s.maskingBytes i s.remainingPayloadBytes.toNat blocks).1 ∧
      (takePayloads s blocks).2 =
        (unmasked s.maskingBytes i s.remainingPayloadBytes.toNat blocks).2 := by
  induction blocks generalizing s i with
  | nil => exact ⟨(append_nil _).symm, rfl⟩
  | cons block blocks ih =>
    obtain ⟨list, index⟩ := block
    obtain ⟨⟨hin, hl⟩, hblocks⟩ := forall_mem_cons.mp hblocks
    obtain ⟨hz, hoffset⟩ := forall_mem_cons.mp hoffset
    dsimp only at hin hl hz
    obtain ⟨n, hn⟩ : ∃ n, n = min (list.length - index) s.remainingPayloadBytes.toNat := ⟨_, rfl⟩
    obtain ⟨-, u, hu, ht⟩ := takePayload_spec hz hin (by omega) hn rfl
    have hnx := ih (takePayload s list index).1 (i := i + n) (by rw [ht]; exact hmasked)
      (by have := hu hmasked; rw [ht]; dsimp only; omega) hblocks hoffset
    have hr : (s.remainingPayloadBytes - n).toNat = s.remainingPayloadBytes.toNat - n := by omega
    rw [ht] at hnx
    dsimp only at hnx
    rw [hr] at hnx
    rw [takePayloads, unmasked, ht, hnx.1, hnx.2, ← hn, hz, Nat.zero_add,
      Transformer.reveal, if_pos hmasked, maskFrom_congr s.maskingBytes hi, append_assoc]
    exact ⟨rfl, rfl⟩

/-- The rest of a payload of three bytes, in two lists. -/
theorem takePayloads_two :
    (takePayloads { new true with masked := true, remainingPayloadBytes := 3, maskingBytes := [1, 2, 3, 4] }
      [(⟨[9, 16, 32], 0, 3⟩, 1), (⟨[64, 5], 0, 2⟩, 0)]).1.payload = [17, 34, 67] ∧
    (takePayloads { new true with masked := true, remainingPayloadBytes := 3, maskingBytes := [1, 2, 3, 4] }
      [(⟨[9, 16, 32], 0, 3⟩, 1), (⟨[64, 5], 0, 2⟩, 0)]).2 = [⟨[9, 17, 34], 0, 3⟩, ⟨[67, 5], 0, 2⟩] :=
  takePayloads_unmasked _ _ (i := 0) rfl rfl (by decide) (by decide)

/-- Of a view, the payload is taken from the wrong place, and in lanes it is unmasked there too. -/
theorem takePayloads_view :
    ∃ (s : Transformer) (list : Uint8List),
      s.masked = true ∧ s.unmaskingIndex = 0 ∧
      list.offsetInBytes + list.length ≤ list.buffer.length ∧
      (takePayloads s [(list, 0)]).1.payload ≠
        s.payload ++ (unmasked s.maskingBytes 0 s.remainingPayloadBytes.toNat [(list, 0)]).1 ∧
      (takePayloads s [(list, 0)]).2.map (·.buffer) ≠
        (unmasked s.maskingBytes 0 s.remainingPayloadBytes.toNat [(list, 0)]).2.map (·.buffer) :=
  ⟨{ new true with masked := true, remainingPayloadBytes := 32, maskingBytes := [1, 2, 3, 4] },
    ⟨replicate 34 0, 2, 32⟩, rfl, rfl, by decide, by decide, by decide⟩

end Payloads

end DartSdk.Io.WebSocket
