import DartSdk.Vm.Datastream

/-!
# Vm.CodeDescriptors — delta-encoded pc descriptors

`DescriptorList::AddDescriptor` appends four SLEB128 integers per record: the merged kind and try
index, and the differences of pc offset, deopt id and token position to the previous record.
`PcDescriptors::Iterator` decodes them again and keeps the records whose kind is in a mask.

`DecodeInteger` sign-extends with `-(1 << shift)` where `1` is an `int`: the shift is done in 32 bits,
and for the counts `35 … 63` that SLEB128 reaches both 64-bit targets shift by the count modulo 32.
`encodeInteger_reads` states what it returns for every 64-bit value, `decoded_eq_iff` when
that is the value written, and `roundTrips_iff` when a whole sequence of records survives.
-/

namespace DartSdk.Vm.CodeDescriptors

open DartSdk.Codec DartSdk.Bits DartSdk.Vm.Datastream List
open BitVec (ofInt ofNat)

/-! ## SLEB128 -/

theorem natAbs_shiftRight_seven_lt {v : ℤ} (h : ¬ (v = 0 ∨ v = -1)) : (v >>> (7 : ℕ)).natAbs < v.natAbs := by
  rw [Int.shiftRight_eq_div_pow]
  omega

/-- The loop of `EncodeInteger`. -/
def encodeLoop (value : ℤ) : List Byte :=
  let part := ofInt 8 (value % 128)
  let value' := value >>> (7 : ℕ)
  if (value' = 0 ∧ part &&& 0x40#8 = 0) ∨ (value' = -1 ∧ part &&& 0x40#8 ≠ 0) then [part]
  else (part ||| 0x80#8) :: encodeLoop value'
termination_by value.natAbs
decreasing_by
  rename_i h
  apply natAbs_shiftRight_seven_lt
  rintro (rfl | rfl)
  · exact h (Or.inl ⟨by decide, by decide⟩)
  · exact h (Or.inr ⟨by decide, by decide⟩)

/-- The bytes `EncodeInteger` appends. -/
def encodeInteger (value : BitVec 64) : List Byte := encodeLoop value.toInt

/-- `1 << shift` on `int`, with the shift count taken as the 64-bit targets take it. -/
def intShl (shift : ℕ) : BitVec 32 := 1#32 <<< (shift % 32)

/-- The sign extension behind the loop of `DecodeInteger`. -/
def signExtendLast (shift : ℕ) (value : BitVec 64) (part : Byte) : BitVec 64 :=
  if shift < 64 ∧ part &&& 0x40#8 ≠ 0 then value ||| (-intShl shift).signExtend 64 else value

/-- The loop of `DecodeInteger`. -/
def decodeLoop (shift : ℕ) (value : BitVec 64) (c : Cursor Byte) :
    Option (BitVec 64 × Cursor Byte) :=
  match h : c.data[c.pos]? with
  | none => none
  | some part =>
    let value := value ||| (part &&& 0x7f#8).setWidth 64 <<< shift
    if part &&& 0x80#8 = 0 then some (signExtendLast (shift + 7) value part, ⟨c.data, c.pos + 1⟩)
    else decodeLoop (shift + 7) value ⟨c.data, c.pos + 1⟩
termination_by c.data.length - c.pos
decreasing_by
  obtain ⟨hlt, -⟩ := List.getElem?_eq_some_iff.mp h
  omega

def decodeInteger : Reader Byte (BitVec 64) := decodeLoop 0 0

/-! ## Records -/

/-- `RawPcDescriptors::Kind`. -/
inductive Kind
  | deopt
  | icCall
  | unoptStaticCall
  | runtimeCall
  | osrEntry
  | other
deriving DecidableEq

namespace Kind

/-- `Utils::ShiftForPowerOfTwo` of the enumerator. -/
def shift : Kind → ℕ
  | deopt => 0
  | icCall => 1
  | unoptStaticCall => 2
  | runtimeCall => 3
  | osrEntry => 4
  | other => 5

/-- The enumerator's value, `1 << shift`. -/
def value (k : Kind) : BitVec 64 := 1#64 <<< k.shift

end Kind

section

variable (l : DescriptorList) (d : Descriptor) (merged : BitVec 64)

def kAnyKind : BitVec 64 := -1
def kNoDeoptId : BitVec 64 := -1
def kKindShiftSize : ℕ := 3
def kTryIndexPos : ℕ := kKindShiftSize
def kTryIndexSize : ℕ := 64 - kKindShiftSize
def kMaxElements : ℕ := 2 ^ 31 - 1

/-- `MergedKindTry::Encode`. -/
def mergedEncode (kind : Kind) (tryIndex : BitVec 64) : BitVec 64 :=
  tryIndex <<< kTryIndexPos ||| ofNat 64 kind.shift

/-- `MergedKindTry::DecodeKind`. -/
def decodeKind : BitVec 64 :=
  (1#32 <<< (merged &&& 7#64).toNat).signExtend 64

/-- `MergedKindTry::DecodeTryIndex`. -/
def decodeTryIndex : BitVec 64 := merged.sshiftRight kTryIndexPos

/-- The arguments of `AddDescriptor`. -/
structure Descriptor where
  kind : Kind
  pcOffset : BitVec 64
  deoptId : BitVec 64
  tokenPos : BitVec 64
  tryIndex : BitVec 64
deriving DecidableEq

/-- The assertions of `AddDescriptor` and `MergedKindTry::Encode`. -/
def Descriptor.Valid : Prop :=
  (d.kind = .runtimeCall ∨ d.kind = .other ∨ d.deoptId ≠ kNoDeoptId) ∧
    -2 ^ (kTryIndexSize - 1) ≤ d.tryIndex.toInt ∧ d.tryIndex.toInt < 2 ^ (kTryIndexSize - 1)

instance (d : Descriptor) : Decidable d.Valid := by unfold Descriptor.Valid; infer_instance

/-- The fields that successive records are encoded against. -/
structure Prev where
  pcOffset : BitVec 64
  deoptId : BitVec 64
  tokenPos : BitVec 64

def Descriptor.prev : Prev := ⟨d.pcOffset, d.deoptId, d.tokenPos⟩

/-- `DescriptorList`. -/
structure DescriptorList where
  encodedData : List Byte
  prev : Prev

def DescriptorList.init : DescriptorList := ⟨[], ⟨0, 0, 0⟩⟩

def encodeRecord (p : Prev) (d : Descriptor) : List Byte :=
  encodeInteger (mergedEncode d.kind d.tryIndex) ++ encodeInteger (d.pcOffset - p.pcOffset) ++
    encodeInteger (d.deoptId - p.deoptId) ++ encodeInteger (d.tokenPos - p.tokenPos)

def DescriptorList.addDescriptor : DescriptorList :=
  ⟨l.encodedData ++ encodeRecord l.prev d, d.prev⟩

/-- The list after a sequence of `AddDescriptor` calls. -/
def DescriptorList.addAll (ds : List Descriptor) : DescriptorList :=
  ds.foldl DescriptorList.addDescriptor l

end

open DescriptorList

/-- The encoded object: `length_` is an `int32_t`. -/
structure PcDescriptors where
  length : BitVec 32
  data : List Byte

/-- `PcDescriptors::New`. -/
def PcDescriptors.new (data : List Byte) : PcDescriptors := ⟨ofNat 32 data.length, data⟩

/-! ## The iterator -/

/-- What an iterator exposes of the current record. -/
structure Rec where
  kind : BitVec 64
  pcOffset : BitVec 64
  deoptId : BitVec 64
  tokenPos : BitVec 64
  tryIndex : BitVec 64
deriving DecidableEq

/-- The four integers of a record, added to the current fields. -/
def decodeRecord (cur : Rec) : Reader Byte Rec := do
  let merged ← decodeInteger
  let pc ← decodeInteger
  let deopt ← decodeInteger
  let token ← decodeInteger
  -- `int32_t merged_kind_try` truncates, its use as an `intptr_t` argument sign-extends
  let merged := (merged.setWidth 32).signExtend 64
  pure ⟨decodeKind merged, cur.pcOffset + pc, cur.deoptId + deopt, cur.tokenPos + token,
    decodeTryIndex merged⟩

theorem decodeLoop_eq (shift : ℕ) (value : BitVec 64) :
    (decodeLoop shift value : Reader Byte (BitVec 64)) = next >>= fun part =>
      if part &&& 0x80#8 = 0 then pure (signExtendLast (shift + 7)
        (value ||| (part &&& 0x7f#8).setWidth 64 <<< shift) part)
      else decodeLoop (shift + 7) (value ||| (part &&& 0x7f#8).setWidth 64 <<< shift) := by
  funext c
  rw [decodeLoop, bind_apply]
  split
  · rename_i h
    rw [next_eq_none h]
    rfl
  · rename_i part h
    rw [next_eq_some h, Option.bind_some]
    split_ifs <;> rfl

theorem decodeLoop_pos {shift : ℕ} {value v : BitVec 64} {c c' : Cursor Byte}
    (h : decodeLoop shift value c = some (v, c')) :
    c'.data = c.data ∧ c.pos < c'.pos ∧ c'.pos ≤ c.data.length := by
  fun_induction decodeLoop shift value c with
  | case1 => cases h
  | case2 _ _ c part hp =>
    obtain ⟨hlt, -⟩ := List.getElem?_eq_some_iff.mp hp
    cases h
    exact ⟨rfl, Nat.lt_succ_self _, hlt⟩
  | case3 _ _ _ _ _ _ _ ih =>
    obtain ⟨hd, hps, hle⟩ := ih h
    exact ⟨hd, Nat.lt_of_succ_lt hps, hle⟩

theorem decodeRecord_pos {cur r : Rec} {c c' : Cursor Byte} (h : decodeRecord cur c = some (r, c')) :
    c'.data = c.data ∧ c.pos < c'.pos ∧ c'.pos ≤ c.data.length := by
  unfold decodeRecord at h
  simp only [bind_apply, Option.bind_eq_some_iff, Prod.exists] at h
  obtain ⟨_, _, h1, _, _, h2, _, _, h3, _, c4, h4, h5⟩ := h
  obtain ⟨d1, _, -⟩ := decodeLoop_pos h1
  obtain ⟨d2, _, -⟩ := decodeLoop_pos h2
  obtain ⟨d3, _, -⟩ := decodeLoop_pos h3
  obtain ⟨d4, _, l4⟩ := decodeLoop_pos h4
  have hc : c' = c4 := congrArg Prod.snd (Option.some.inj h5).symm
  subst hc
  rw [d3, d2, d1] at l4
  exact ⟨by rw [d4, d3, d2, d1], by omega, l4⟩

/-- All records from the current position on whose kind is in the mask: `MoveNext` until it returns
false.  `none` stands for a read behind the data. -/
def iterateFrom (ds : PcDescriptors) (kindMask : BitVec 64) (byteIndex : ℕ) (cur : Rec) :
    Option (List Rec) :=
  if (byteIndex : ℤ) < ds.length.toInt then
    match _h : decodeRecord cur ⟨ds.data, byteIndex⟩ with
    | none => none
    | some (r, c) =>
      if r.kind &&& kindMask ≠ 0 then (iterateFrom ds kindMask c.pos r).map (r :: ·)
      else iterateFrom ds kindMask c.pos r
  else some []
termination_by ds.data.length - byteIndex
decreasing_by
  all_goals
    obtain ⟨-, h1, h2⟩ := decodeRecord_pos _h
    simp only at h1 h2
    omega

/-- The records an `Iterator` with the given mask yields. -/
def iterate (ds : PcDescriptors) (kindMask : BitVec 64) : Option (List Rec) :=
  iterateFrom ds kindMask 0 ⟨0, 0, 0, 0, 0⟩

/-! ## What `DecodeInteger` returns -/

section Sleb

theorem group_masks : ∀ b : Byte, b.toNat < 128 →
    b &&& 0x80#8 = 0 ∧ b &&& 0x7f#8 = b ∧ (b ||| 0x80#8) &&& 0x7f#8 = b ∧
      (b ||| 0x80#8) &&& 0x80#8 ≠ 0 ∧ (b &&& 0x40#8 = 0 ↔ b.toNat < 64) := by
  decide

theorem toNat_group7 (v : ℤ) : ((ofInt 8 (v % 128)).toNat : ℤ) = v % 128 := toNat_group v

theorem toNat_group7_lt (v : ℤ) : (ofInt 8 (v % 128)).toNat < 128 := by
  have := toNat_group7 v
  omega

theorem encodeLoop_last_iff (v : ℤ) :
    ((v >>> (7 : ℕ) = 0 ∧ ofInt 8 (v % 128) &&& 0x40#8 = 0) ∨
      (v >>> (7 : ℕ) = -1 ∧ ofInt 8 (v % 128) &&& 0x40#8 ≠ 0)) ↔ -64 ≤ v ∧ v < 64 := by
  have h := toNat_group7 v
  have h40 := (group_masks _ (toNat_group7_lt v)).2.2.2.2
  rw [ne_eq, h40, Int.shiftRight_eq_div_pow]
  omega

theorem encodeLoop_last {v : ℤ} (h : -64 ≤ v ∧ v < 64) :
    encodeLoop v = [ofInt 8 (v % 128)] := by
  rw [encodeLoop]
  exact if_pos ((encodeLoop_last_iff v).mpr h)

theorem encodeLoop_more {v : ℤ} (h : ¬ (-64 ≤ v ∧ v < 64)) :
    encodeLoop v = (ofInt 8 (v % 128) ||| 0x80#8) :: encodeLoop (v >>> (7 : ℕ)) := by
  rw [encodeLoop]
  exact if_neg (fun h' => h ((encodeLoop_last_iff v).mp h'))

/-- Induction along the groups of a value. -/
theorem encode_induction {P : ℤ → Prop} (last : ∀ v, -64 ≤ v ∧ v < 64 → P v)
    (more : ∀ v : ℤ, ¬ (-64 ≤ v ∧ v < 64) → P (v >>> (7 : ℕ)) → P v) : ∀ v, P v := by
  intro v
  induction hn : v.natAbs using Nat.strong_induction_on generalizing v with
  | _ n ih =>
    by_cases h : -64 ≤ v ∧ v < 64
    · exact last v h
    · exact more v h (ih _ (hn ▸ natAbs_shiftRight_seven_lt (by omega)) _ rfl)

theorem encodeLoop_length_pos (v : ℤ) : 0 < (encodeLoop v).length := by
  rw [encodeLoop]
  split_ifs <;> simp

theorem encodeLoop_length_le_iff (v : ℤ) (k : ℕ) :
    (encodeLoop v).length ≤ k + 1 ↔ -2 ^ (7 * k + 6) ≤ v ∧ v < 2 ^ (7 * k + 6) := by
  induction v using encode_induction generalizing k with
  | last v h =>
    rw [encodeLoop_last h]
    have : (64 : ℤ) ≤ 2 ^ (7 * k + 6) := by
      have := pow_le_pow_right₀ (by norm_num : (1 : ℤ) ≤ 2) (by omega : 6 ≤ 7 * k + 6)
      omega
    simp only [length_singleton]
    omega
  | more v h ih =>
    rw [encodeLoop_more h, length_cons]
    cases k with
    | zero =>
      have := encodeLoop_length_pos (v >>> (7 : ℕ))
      omega
    | succ k =>
      have hk := ih k
      rw [Int.shiftRight_eq_div_pow] at hk ⊢
      have e : (2 : ℤ) ^ (7 * (k + 1) + 6) = 2 ^ (7 * k + 6) * 128 := by ring
      rw [Nat.add_le_add_iff_right, hk, e]
      omega

theorem emod_groups (v : ℤ) (m : ℕ) :
    v % (2 : ℤ) ^ (7 * (m + 1)) = v % (128 : ℤ) + (128 : ℤ) * ((v >>> (7 : ℕ)) % (2 : ℤ) ^ (7 * m)) := by
  have e : (2 : ℤ) ^ (7 * (m + 1)) = 128 * 2 ^ (7 * m) := by ring
  rw [Int.shiftRight_eq_div_pow, show ((2 ^ 7 : ℕ) : ℤ) = 128 from rfl, e, Int.emod_def v (_ * _),
    Int.emod_def v, Int.emod_def (v / 128), Int.ediv_ediv_of_nonneg (by norm_num)]
  ring

/-- What the decoder makes of the groups of `v` above an accumulator `r` of `s` bits. -/
def decoded (s r : ℕ) (v : ℤ) : BitVec 64 :=
  let n := (encodeLoop v).length
  let raw := ofInt 64 (r + v % (2 : ℤ) ^ (7 * n) * 2 ^ s)
  if s + 7 * n < 64 ∧ v < 0 then raw ||| (-intShl (s + 7 * n)).signExtend 64 else raw

theorem or_group7 {s r : ℕ} (hr : r < 2 ^ s) (v : ℤ) :
    ofNat 64 r ||| (ofInt 8 (v % 128)).setWidth 64 <<< s =
      ofInt 64 (r + v % 128 * 2 ^ s) := by
  rw [setWidth_byte, ofNat_or_shiftLeft hr, toNat_group7]

theorem decodeLoop_reads (v : ℤ) {s r : ℕ} (hr : r < 2 ^ s) :
    Reads (decodeLoop s (ofNat 64 r)) (encodeLoop v) (decoded s r v) := by
  induction v using encode_induction generalizing s r with
  | last v h =>
    obtain ⟨m1, m2, -, -, m5⟩ := group_masks _ (toNat_group7_lt v)
    have hng : ofInt 8 (v % 128) &&& 0x40#8 ≠ 0 ↔ v < 0 := by
      have := toNat_group7 v
      rw [ne_eq, m5]
      omega
    unfold decoded
    rw [encodeLoop_last h, decodeLoop_eq]
    apply Reads.next_bind
    rw [if_pos m1, m2, or_group7 hr]
    unfold signExtendLast
    simp only [hng, length_singleton, Nat.mul_one]
    exact Reads.pure _
  | more v h ih =>
    obtain ⟨-, -, m3, m4, -⟩ := group_masks _ (toNat_group7_lt v)
    have hi := ih (add_group_lt hr v)
    have hng : v >>> (7 : ℕ) < 0 ↔ v < 0 := by
      rw [Int.shiftRight_eq_div_pow]
      omega
    have hd : decoded (s + 7) (r + (ofInt 8 (v % 128)).toNat * 2 ^ s) (v >>> (7 : ℕ)) =
        decoded s r v := by
      obtain ⟨n, hn⟩ : ∃ n, (encodeLoop (v >>> (7 : ℕ))).length = n := ⟨_, rfl⟩
      have hl : (encodeLoop v).length = n + 1 := by
        rw [encodeLoop_more h, length_cons, hn]
      unfold decoded
      simp only [hl, hn, hng]
      rw [emod_groups, show s + 7 + 7 * n = s + 7 * (n + 1) by ring]
      have e : ((r + (ofInt 8 (v % 128)).toNat * 2 ^ s : ℕ) : ℤ) +
          (v >>> (7 : ℕ)) % (2 : ℤ) ^ (7 * n) * (2 : ℤ) ^ (s + 7) =
          r + (v % 128 + 128 * ((v >>> (7 : ℕ)) % (2 : ℤ) ^ (7 * n))) * (2 : ℤ) ^ s := by
        push_cast
        rw [toNat_group7]
        ring
      rw [e]
    rw [encodeLoop_more h, decodeLoop_eq]
    apply Reads.next_bind
    rw [if_neg m4, m3, or_group7 hr, ← hd]
    have ev : ofInt 64 ((r : ℤ) + v % 128 * 2 ^ s) =
        ofNat 64 (r + (ofInt 8 (v % 128)).toNat * 2 ^ s) := by
      rw [← BitVec.ofInt_natCast]
      push_cast
      rw [toNat_group7]
    rw [ev]
    exact hi

theorem neg_intShl_signExtend : ∀ k : Fin 32,
    (-(1#32 <<< k.val)).signExtend 64 = ofInt 64 (-2 ^ k.val) := by
  decide +kernel

/-- The sign extension of the last group: ones from bit `shift % 32` upwards. -/
theorem signExtend_intShl (shift : ℕ) :
    (-intShl shift).signExtend 64 = ofInt 64 (-2 ^ (shift % 32)) :=
  neg_intShl_signExtend ⟨shift % 32, Nat.mod_lt _ (by omega)⟩

variable (v : BitVec 64)

/-- `v` is neither of the negative values whose last group ends above bit 31 and below bit 64. -/
def Survives : Prop := ¬ (-2 ^ 62 ≤ v.toInt ∧ v.toInt < -2 ^ 27)

instance (v : BitVec 64) : Decidable (Survives v) := inferInstanceAs (Decidable (¬ _))

theorem ofInt_emod_of_dvd {v : ℤ} {m : ℕ} (hm : 64 ≤ m) :
    ofInt 64 (v % (2 : ℤ) ^ m) = ofInt 64 v := by
  apply BitVec.eq_of_toNat_eq
  rw [BitVec.toNat_ofInt, BitVec.toNat_ofInt, Int.emod_emod_of_dvd]
  exact_mod_cast Nat.pow_dvd_pow 2 hm

theorem encodeInteger_length : (encodeLoop v.toInt).length ≤ 10 := by
  have h1 := BitVec.le_toInt v
  have h2 := BitVec.toInt_lt (x := v)
  exact (encodeLoop_length_le_iff _ 9).mpr ⟨by omega, by omega⟩

/-- A negative value of at most nine groups: ones are or-ed in from bit `7 * n % 32`. -/
theorem decoded_neg {x : ℤ} {n : ℕ} (hl : (encodeLoop x).length = n) (hx : x < 0)
    (hn : 7 * n < 64) : decoded 0 0 x = ofInt 64
      (((x % (2 : ℤ) ^ (7 * n)).toNat % 2 ^ (7 * n % 32) : ℕ) - 2 ^ (7 * n % 32)) := by
  have hp : (0 : ℤ) < 2 ^ (7 * n) := by positivity
  have h0 := Int.emod_nonneg x hp.ne'
  have h1 := Int.emod_lt_of_pos x hp
  have h2 : (2 : ℤ) ^ (7 * n) ≤ 2 ^ 64 := pow_le_pow_right₀ (by norm_num) hn.le
  have hr : (ofInt 64 (x % (2 : ℤ) ^ (7 * n))).toNat = (x % (2 : ℤ) ^ (7 * n)).toNat := by
    rw [BitVec.toNat_ofInt, Int.emod_eq_of_lt h0 (by push_cast; omega)]
  unfold decoded
  simp only [hl, pow_zero, mul_one, Nat.cast_zero, zero_add]
  rw [if_pos ⟨hn, hx⟩, signExtend_intShl, or_ofInt_neg_pow, hr]

theorem emod_neg_toNat {x : ℤ} {m : ℕ} (hlo : -(2 : ℤ) ^ m ≤ x) (hx : x < 0) :
    (((x % (2 : ℤ) ^ m).toNat % 2 ^ m : ℕ) : ℤ) = x + 2 ^ m := by
  have hp : (0 : ℤ) < 2 ^ m := by positivity
  have e : x % (2 : ℤ) ^ m = x + 2 ^ m := by
    rw [← Int.add_emod_right]
    exact Int.emod_eq_of_lt (by omega) (by omega)
  have hlt : (x % (2 : ℤ) ^ m).toNat < 2 ^ m := by
    have : ((2 ^ m : ℕ) : ℤ) = 2 ^ m := by push_cast; rfl
    omega
  rw [Nat.mod_eq_of_lt hlt, Int.toNat_of_nonneg (by omega), e]

/-- **What `DecodeInteger` returns** for the encoding of `v`: `v` itself, unless `v` is negative
with a last group between bits 32 and 63. -/
theorem decoded_spec :
    (Survives v → decoded 0 0 v.toInt = v) ∧
    (¬ Survives v → v.toInt + 8 < (decoded 0 0 v.toInt).toInt ∧
      -2 ^ 31 ≤ (decoded 0 0 v.toInt).toInt ∧ (decoded 0 0 v.toInt).toInt < 0) := by
  have hle := encodeInteger_length v
  have hp := encodeLoop_length_pos v.toInt
  have hv : ofInt 64 v.toInt = v := BitVec.ofInt_toInt
  unfold Survives
  generalize hx : v.toInt = x at *
  obtain ⟨n, hlen⟩ : ∃ n, (encodeLoop x).length = n := ⟨_, rfl⟩
  have hub := (encodeLoop_length_le_iff x (n - 1)).mp (by omega)
  by_cases h0 : 0 ≤ x
  · refine ⟨fun _ => ?_, fun h => absurd h (by omega)⟩
    unfold decoded
    have hlt : x < (2 : ℤ) ^ (7 * n) := hub.2.trans_le (pow_le_pow_right₀ (by norm_num) (by omega))
    simp only [hlen, not_lt.mpr h0, and_false, if_false, pow_zero, mul_one, Nat.cast_zero, zero_add]
    rw [Int.emod_eq_of_lt h0 hlt, hv]
  by_cases hn : 7 * n < 64
  · rw [decoded_neg hlen (by omega) hn]
    by_cases h32 : 7 * n < 32
    · -- four groups or fewer are extended from their own top bit
      have hge := (encodeLoop_length_le_iff x 3).mp (by omega)
      refine ⟨fun _ => ?_, fun h => absurd h (by omega)⟩
      have hlo : -(2 : ℤ) ^ (7 * n) ≤ x :=
        le_trans (neg_le_neg (pow_le_pow_right₀ (by norm_num) (by omega))) hub.1
      rw [Nat.mod_eq_of_lt h32, emod_neg_toNat hlo (by omega), sub_eq_add_neg,
        add_neg_cancel_right, hv]
    · -- five to nine groups are extended from bit `7 * n - 32`
      have hlt := (encodeLoop_length_le_iff x (n - 2)).not.mp (by omega)
      have hlo := (encodeLoop_length_le_iff x 8).mp (by omega)
      have hhi := (encodeLoop_length_le_iff x 3).not.mp (by omega)
      refine ⟨fun h => absurd h (by omega), fun _ => ?_⟩
      obtain ⟨k, hk⟩ : ∃ k, 7 * n = k + 32 := ⟨_, (Nat.sub_add_cancel (by omega)).symm⟩
      have hk31 : k ≤ 31 := by omega
      have hpw : (2 : ℤ) ^ k ≤ 2 ^ 31 := pow_le_pow_right₀ (by norm_num) hk31
      have ho : (1 : ℤ) ≤ 2 ^ k := one_le_pow₀ (by norm_num)
      have he : (2 : ℤ) ^ (7 * (n - 2) + 6) = 2 ^ k * 2 ^ 24 := by
        rw [← pow_add]
        congr 1
        omega
      rw [he] at hlt
      rw [hk, show (k + 32) % 32 = k by omega]
      have hm := Nat.mod_lt (x % (2 : ℤ) ^ (k + 32)).toNat (Nat.two_pow_pos k)
      generalize (x % (2 : ℤ) ^ (k + 32)).toNat % 2 ^ k = r at hm ⊢
      have hr : (r : ℤ) < 2 ^ k := by exact_mod_cast hm
      rw [BitVec.toInt_ofInt_eq_self (by omega) (by omega) (by omega)]
      omega
  · have hl := encodeLoop_length_le_iff x 8
    refine ⟨fun _ => ?_, fun h => absurd h (by omega)⟩
    unfold decoded
    simp only [hlen, hn, false_and, if_false, pow_zero, mul_one, Nat.cast_zero, zero_add]
    rw [ofInt_emod_of_dvd (by omega), hv]

theorem encodeInteger_reads :
    Reads decodeInteger (encodeInteger v) (decoded 0 0 v.toInt) :=
  decodeLoop_reads v.toInt (by simp)

theorem decoded_eq_iff : decoded 0 0 v.toInt = v ↔ Survives v := by
  obtain ⟨h1, h2⟩ := decoded_spec v
  refine ⟨fun h => ?_, h1⟩
  by_contra hs
  have := (h2 hs).1
  rw [h] at this
  omega

end Sleb

/-! ## Records survive or not -/

section Records

def Rec.prev (r : Rec) : Prev := ⟨r.pcOffset, r.deoptId, r.tokenPos⟩

def Descriptor.toRec (d : Descriptor) : Rec :=
  ⟨d.kind.value, d.pcOffset, d.deoptId, d.tokenPos, d.tryIndex⟩

variable (ds : List Descriptor)

/-- Iterating the encoded bytes gives the records back, and with a mask the records in the mask. -/
def RoundTrips : Prop :=
  iterate (.new (init.addAll ds).encodedData) kAnyKind = some (ds.map (·.toRec)) ∧
  ∀ mask : BitVec 64, iterate (.new (init.addAll ds).encodedData) mask =
    some ((ds.filter (fun d => d.kind.value &&& mask ≠ 0)).map (·.toRec))

/-- The record `d` is decoded as it was written behind `p`. -/
def Recovered (p : Prev) (d : Descriptor) : Prop :=
  (-2 ^ 24 ≤ d.tryIndex.toInt ∧ d.tryIndex.toInt < 2 ^ 28) ∧
    Survives (d.pcOffset - p.pcOffset) ∧ Survives (d.deoptId - p.deoptId) ∧
    Survives (d.tokenPos - p.tokenPos)

instance (p : Prev) (d : Descriptor) : Decidable (Recovered p d) := by
  unfold Recovered
  infer_instance

def AllRecovered : Prev → List Descriptor → Prop
  | _, [] => True
  | p, d :: ds => Recovered p d ∧ AllRecovered d.prev ds

instance decidableAllRecovered : ∀ (p : Prev) (ds : List Descriptor), Decidable (AllRecovered p ds)
  | _, [] => inferInstanceAs (Decidable True)
  | p, d :: ds =>
    have := decidableAllRecovered d.prev ds
    inferInstanceAs (Decidable (Recovered p d ∧ AllRecovered d.prev ds))

theorem mergedEncode_eq (k : Kind) (t : BitVec 64) :
    mergedEncode k t = ofInt 64 (k.shift + t.toInt * 2 ^ 3) := by
  have hk : k.shift < 2 ^ 3 := by cases k <;> decide
  rw [← ofNat_or_shiftLeft hk, BitVec.ofInt_toInt, BitVec.or_comm]
  rfl

theorem mergedEncode_toInt (k : Kind) {t : BitVec 64} (h0 : -2 ^ 60 ≤ t.toInt)
    (h1 : t.toInt < 2 ^ 60) : (mergedEncode k t).toInt = k.shift + t.toInt * 2 ^ 3 := by
  have hk : k.shift < 2 ^ 3 := by cases k <;> decide
  rw [mergedEncode_eq, BitVec.toInt_ofInt_eq_self (by omega) (by omega) (by omega)]

/-- `int32_t merged_kind_try`, as the `intptr_t` argument of the two decoders. -/
def truncated (w : BitVec 64) : BitVec 64 := (w.setWidth 32).signExtend 64

theorem truncated_eq (w : BitVec 64) : truncated w = ofInt 64 (w.toInt.bmod (2 ^ 32)) := by
  unfold truncated
  conv_lhs => rw [← BitVec.ofInt_toInt (x := w)]
  rw [setWidth_ofInt (by omega), BitVec.signExtend, BitVec.toInt_ofInt]

theorem decodeTryIndex_truncated (w : BitVec 64) :
    (decodeTryIndex (truncated w)).toInt = w.toInt.bmod (2 ^ 32) / 8 := by
  have h0 := Int.le_bmod (x := w.toInt) (m := 2 ^ 32) (by norm_num)
  have h1 := Int.bmod_lt (x := w.toInt) (m := 2 ^ 32) (by norm_num)
  rw [decodeTryIndex, BitVec.toInt_sshiftRight, truncated_eq,
    BitVec.toInt_ofInt_eq_self (by omega) (by omega) (by omega), Int.shiftRight_eq_div_pow]
  rfl

theorem decodeKind_ofNat : ∀ n : Fin 8, (1#32 <<< n.val).signExtend 64 = 1#64 <<< n.val := by decide

theorem toNat_and_seven (m : BitVec 64) : (m &&& 7#64).toNat = m.toNat % 8 := by
  rw [BitVec.toNat_and]
  exact Nat.and_two_pow_sub_one_eq_mod m.toNat 3

theorem decodeKind_eq (m : BitVec 64) : decodeKind m = 1#64 <<< (m.toNat % 8) := by
  unfold decodeKind
  rw [toNat_and_seven]
  exact decodeKind_ofNat ⟨m.toNat % 8, Nat.mod_lt _ (by norm_num)⟩

theorem decodeKind_ne_zero (m : BitVec 64) : decodeKind m ≠ 0 := by
  have h : ∀ n : Fin 8, 1#64 <<< n.val ≠ 0#64 := by decide
  rw [decodeKind_eq]
  exact h ⟨m.toNat % 8, Nat.mod_lt _ (by norm_num)⟩

/-- The merged field survives its decoding and the truncation to 32 bits exactly when the try index
fits in 25 bits or, if not negative, in 29. -/
theorem merged_iff (k : Kind) {t : BitVec 64} (h0 : -2 ^ 60 ≤ t.toInt) (h1 : t.toInt < 2 ^ 60) :
    (decodeKind (truncated (decoded 0 0 (mergedEncode k t).toInt)) = k.value ∧
      decodeTryIndex (truncated (decoded 0 0 (mergedEncode k t).toInt)) = t) ↔
    -2 ^ 24 ≤ t.toInt ∧ t.toInt < 2 ^ 28 := by
  have hk : k.shift < 8 := by cases k <;> decide
  have hm := mergedEncode_toInt k h0 h1
  obtain ⟨hs, hns⟩ := decoded_spec (mergedEncode k t)
  generalize hw : decoded 0 0 (mergedEncode k t).toInt = w at *
  unfold Survives at hs hns
  rw [hm] at hs hns
  constructor
  · rintro ⟨-, ht⟩
    have htr := decodeTryIndex_truncated w
    rw [ht] at htr
    by_cases hbad : -2 ^ 62 ≤ (k.shift : ℤ) + t.toInt * 2 ^ 3 ∧ (k.shift : ℤ) + t.toInt * 2 ^ 3 < -2 ^ 27
    · obtain ⟨_, _, _⟩ := hns (not_not.mpr hbad)
      rw [Int.bmod_eq_of_le (by omega) (by omega)] at htr
      omega
    · have hb0 := Int.le_bmod (x := w.toInt) (m := 2 ^ 32) (by norm_num)
      have hb1 := Int.bmod_lt (x := w.toInt) (m := 2 ^ 32) (by norm_num)
      omega
  · rintro ⟨ht0, ht1⟩
    have hwm := hs (by omega)
    have hwt : w.toInt.bmod (2 ^ 32) = k.shift + t.toInt * 2 ^ 3 := by
      rw [hwm, hm]
      exact Int.bmod_eq_of_le (by omega) (by omega)
    constructor
    · rw [decodeKind_eq, truncated_eq, hwt, BitVec.toNat_ofInt]
      have : (((k.shift : ℤ) + t.toInt * 2 ^ 3) % ((2 ^ 64 : ℕ) : ℤ)).toNat % 8 = k.shift := by
        push_cast
        omega
      rw [this]
      rfl
    · apply BitVec.eq_of_toInt_eq
      rw [decodeTryIndex_truncated, hwt]
      omega

/-- A record is read with exactly its bytes, whether or not it is read correctly. -/
theorem record_reads (cur : Rec) {d : Descriptor} (hd : d.Valid) :
    ∃ r, Reads (decodeRecord cur) (encodeRecord cur.prev d) r ∧ r.kind ≠ 0 ∧
      (r = d.toRec ↔ Recovered cur.prev d) := by
  refine ⟨⟨decodeKind (truncated (decoded 0 0 (mergedEncode d.kind d.tryIndex).toInt)),
    cur.pcOffset + decoded 0 0 (d.pcOffset - cur.pcOffset).toInt,
    cur.deoptId + decoded 0 0 (d.deoptId - cur.deoptId).toInt,
    cur.tokenPos + decoded 0 0 (d.tokenPos - cur.tokenPos).toInt,
    decodeTryIndex (truncated (decoded 0 0 (mergedEncode d.kind d.tryIndex).toInt))⟩,
    ?_, decodeKind_ne_zero _, ?_⟩
  · unfold encodeRecord
    rw [append_assoc, append_assoc]
    exact (encodeInteger_reads _).bind ((encodeInteger_reads _).bind
      ((encodeInteger_reads _).bind ((encodeInteger_reads _).map _)))
  · have hs : ∀ a b w : BitVec 64, b + w = a ↔ w = a - b := fun a b w => by
      rw [eq_comm (a := w), BitVec.sub_eq_iff_eq_add, BitVec.add_comm, eq_comm]
    obtain ⟨-, ht0, ht1⟩ := hd
    simp only [Descriptor.toRec, Rec.mk.injEq, hs, decoded_eq_iff]
    unfold Recovered
    rw [← merged_iff d.kind ht0 ht1]
    exact ⟨fun ⟨a, b, c, e, f⟩ => ⟨⟨a, f⟩, b, c, e⟩, fun ⟨⟨a, f⟩, b, c, e⟩ => ⟨a, b, c, e, f⟩⟩

/-- The bytes of a sequence of records behind `p`. -/
def encodeAll : Prev → List Descriptor → List Byte
  | _, [] => []
  | p, d :: ds => encodeRecord p d ++ encodeAll d.prev ds

theorem addAll_encodedData (l : DescriptorList) :
    (l.addAll ds).encodedData = l.encodedData ++ encodeAll l.prev ds := by
  induction ds generalizing l with
  | nil => simp [addAll, encodeAll]
  | cons d ds ih =>
    have h := ih (l.addDescriptor d)
    simp only [addDescriptor, append_assoc] at h
    exact h

theorem encodeRecord_ne_nil (p : Prev) (d : Descriptor) : 0 < (encodeRecord p d).length := by
  have := encodeLoop_length_pos (mergedEncode d.kind d.tryIndex).toInt
  simp only [encodeRecord, length_append, encodeInteger]
  omega

theorem encodeAll_length_le (p : Prev) (ds : List Descriptor) :
    (encodeAll p ds).length ≤ 40 * ds.length := by
  induction ds generalizing p with
  | nil => simp [encodeAll]
  | cons d ds ih =>
    have h1 := encodeInteger_length (mergedEncode d.kind d.tryIndex)
    have h2 := encodeInteger_length (d.pcOffset - p.pcOffset)
    have h3 := encodeInteger_length (d.deoptId - p.deoptId)
    have h4 := encodeInteger_length (d.tokenPos - p.tokenPos)
    have h5 := ih d.prev
    simp only [encodeAll, encodeRecord, encodeInteger, length_append, length_cons]
    omega

theorem new_length {data : List Byte} (h : data.length ≤ kMaxElements) :
    (PcDescriptors.new data).length.toInt = data.length := by
  simp only [kMaxElements] at h
  simp only [PcDescriptors.new]
  rw [BitVec.toInt_eq_toNat_of_lt] <;> rw [BitVec.toNat_ofNat] <;> omega

theorem iterateFrom_record {pre bytes rest : List Byte} {cur r : Rec}
    (h : (pre ++ (bytes ++ rest)).length ≤ kMaxElements) (hne : 0 < bytes.length)
    (hr : Reads (decodeRecord cur) bytes r) (mask : BitVec 64) :
    iterateFrom (.new (pre ++ (bytes ++ rest))) mask pre.length cur =
      if r.kind &&& mask ≠ 0 then
        (iterateFrom (.new (pre ++ (bytes ++ rest))) mask (pre ++ bytes).length r).map (r :: ·)
      else iterateFrom (.new (pre ++ (bytes ++ rest))) mask (pre ++ bytes).length r := by
  have hlt : (pre.length : ℤ) < (pre ++ (bytes ++ rest)).length := by
    simp only [length_append]
    omega
  have hd : decodeRecord cur ⟨(PcDescriptors.new (pre ++ (bytes ++ rest))).data, pre.length⟩ = _ :=
    hr pre rest
  rw [← length_append] at hd
  rw [iterateFrom, new_length h, if_pos hlt]
  split
  · rename_i h'
    rw [hd] at h'
    cases h'
  · rename_i r' c' h'
    rw [hd] at h'
    obtain ⟨rfl, rfl⟩ := Prod.mk.inj (Option.some.inj h')
    rfl

theorem and_kAnyKind (k : BitVec 64) : k &&& kAnyKind = k := by
  unfold kAnyKind
  rw [show (-1 : BitVec 64) = BitVec.allOnes 64 from rfl, BitVec.and_allOnes]

/-- If every record survives, every mask yields its subsequence; if the unmasked iteration gives the
records back, every record has survived. -/
theorem iterateFrom_all (hv : ∀ d ∈ ds, d.Valid) (cur : Rec) (pre : List Byte)
    (hl : (pre ++ encodeAll cur.prev ds).length ≤ kMaxElements) :
    (AllRecovered cur.prev ds → ∀ mask : BitVec 64,
      iterateFrom (.new (pre ++ encodeAll cur.prev ds)) mask pre.length cur =
        some ((ds.filter (fun d => d.kind.value &&& mask ≠ 0)).map (·.toRec))) ∧
    (iterateFrom (.new (pre ++ encodeAll cur.prev ds)) kAnyKind pre.length cur =
      some (ds.map (·.toRec)) → AllRecovered cur.prev ds) := by
  induction ds generalizing cur pre with
  | nil =>
    refine ⟨fun _ mask => ?_, fun _ => trivial⟩
    simp only [encodeAll, append_nil] at hl ⊢
    rw [iterateFrom, new_length hl, if_neg (lt_irrefl _)]
    rfl
  | cons d ds ih =>
    obtain ⟨r, hr, hr0, hi⟩ := record_reads cur (hv d (by simp))
    simp only [encodeAll] at hl ⊢
    obtain ⟨hs, hrc⟩ := ih (fun d' hd' => hv d' (by simp [hd'])) d.toRec
      (pre ++ encodeRecord cur.prev d) (by rwa [append_assoc])
    rw [append_assoc, show d.toRec.prev = d.prev from rfl] at hs hrc
    refine ⟨fun hre mask => ?_, fun hit => ?_⟩
    · obtain rfl := hi.mpr hre.1
      rw [iterateFrom_record hl (encodeRecord_ne_nil _ d) hr, hs hre.2 mask]
      rw [show d.toRec.kind = d.kind.value from rfl, filter_cons]
      by_cases hk : d.kind.value &&& mask ≠ 0
      · rw [if_pos hk, if_pos (decide_eq_true hk)]
        rfl
      · rw [if_neg hk, if_neg (by simpa using hk)]
    · rw [iterateFrom_record hl (encodeRecord_ne_nil _ d) hr, and_kAnyKind, if_pos hr0] at hit
      obtain ⟨_, hrs, hc⟩ := Option.map_eq_some_iff.mp hit
      obtain ⟨rfl, rfl⟩ := hc
      exact ⟨hi.mp rfl, hrc hrs⟩

theorem init_encodedData :
    (init.addAll ds).encodedData = encodeAll ⟨0, 0, 0⟩ ds := by
  rw [addAll_encodedData]
  rfl

theorem roundTrips_iff {ds : List Descriptor} (hv : ∀ d ∈ ds, d.Valid)
    (hl : (init.addAll ds).encodedData.length ≤ kMaxElements) :
    RoundTrips ds ↔ AllRecovered ⟨0, 0, 0⟩ ds := by
  unfold RoundTrips iterate
  rw [init_encodedData] at hl ⊢
  obtain ⟨ha, hr⟩ := iterateFrom_all ds hv ⟨0, 0, 0, 0, 0⟩ [] hl
  constructor
  · rintro ⟨h, -⟩
    exact hr h
  · intro h
    refine ⟨?_, ha h⟩
    have han := ha h kAnyKind
    rwa [filter_eq_self.mpr] at han
    intro d _
    rw [and_kAnyKind]
    cases d.kind <;> decide

end Records

/-- **When pc descriptors survive.**  `DecodeInteger` undoes `EncodeInteger` exactly for the values
that are not in `[-2^62, -2^27)`; a sequence of records is iterated as it was added, for every mask,
exactly when all differences are such values and all try indices lie in `[-2^24, 2^28)`. -/
theorem pcDescriptors_roundTrip_iff (v : BitVec 64) (ds : List Descriptor) (hv : ∀ d ∈ ds, d.Valid)
    (hlen : (init.addAll ds).encodedData.length ≤ kMaxElements) :
    (Reads decodeInteger (encodeInteger v) v ↔ Survives v) ∧
    (RoundTrips ds ↔ AllRecovered ⟨0, 0, 0⟩ ds) := by
  refine ⟨?_, roundTrips_iff hv hlen⟩
  rw [← decoded_eq_iff]
  constructor
  · intro h
    have h1 := h.run
    rw [(encodeInteger_reads v).run] at h1
    exact congrArg Prod.fst (Option.some.inj h1)
  · intro h
    have h1 := encodeInteger_reads v
    rwa [h] at h1

theorem pcDescriptors_roundTrip_two :
    RoundTrips [⟨.deopt, 16, 1, 100, -1⟩, ⟨.other, 24, -1, 90, 0⟩] := by
  refine (pcDescriptors_roundTrip_iff 0 _ (by decide) ?_).2.mpr (by decide)
  rw [init_encodedData]
  exact (encodeAll_length_le _ _).trans (by decide)

/-- Two ic-calls, the second one more than `2^27` below the first: the pc offset is lost. -/
theorem descending_pcOffset_lost :
    (∀ d ∈ [(⟨.icCall, 0x8000001, 0, 0, 0⟩ : Descriptor), ⟨.icCall, 0, 1, 1, 0⟩], d.Valid) ∧
    (init.addAll
      [⟨.icCall, 0x8000001, 0, 0, 0⟩, ⟨.icCall, 0, 1, 1, 0⟩]).encodedData.length ≤ kMaxElements ∧
    ¬ RoundTrips [⟨.icCall, 0x8000001, 0, 0, 0⟩, ⟨.icCall, 0, 1, 1, 0⟩] := by
  have hv : ∀ d ∈ [(⟨.icCall, 0x8000001, 0, 0, 0⟩ : Descriptor), ⟨.icCall, 0, 1, 1, 0⟩],
      d.Valid := by decide
  have hl : (init.addAll
      [⟨.icCall, 0x8000001, 0, 0, 0⟩, ⟨.icCall, 0, 1, 1, 0⟩]).encodedData.length ≤ kMaxElements := by
    rw [init_encodedData]
    exact (encodeAll_length_le _ _).trans (by decide)
  refine ⟨hv, hl, ?_⟩
  rw [roundTrips_iff hv hl]
  decide

end DartSdk.Vm.CodeDescriptors
