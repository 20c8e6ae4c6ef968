import Mathlib.Algebra.Group.Nat.Defs
import Mathlib.Tactic.SplitIfs

/-!
# Vm.RawObject — bit fields and the tags of a heap object

`BitField` of `vm/bitfield.h`, and the part of the object header of `vm/raw_object.h` that the
collector and the free list read: the mark bit and the size tag.  A size that does not fit the tag
is encoded as zero and found elsewhere.

* `decode_update`, `decode_update_ne`: a field reads back what was put there, and fields that do not
  overlap do not disturb each other.
* `sizeTag_decode_update`: the size tag holds every size up to `kMaxSizeTag`.
* `size_clearMarkBit`: clearing the mark does not change the size.
-/

namespace DartSdk.Vm

open BitVec

/-- `uword` and `intptr_t` of a 64-bit target. -/
abbrev Word := BitVec 64

def kWordSize : ℕ := 8
def kObjectAlignmentLog2 : ℕ := 4
def kObjectAlignment : ℕ := 2 * kWordSize

/-- `BitField<T, position, size>`. -/
structure BitField where
  position : ℕ
  size : ℕ

namespace BitField

variable (f g : BitField)

def mask : Word := (1#64 <<< f.size) - 1#64

def maskInPlace : Word := f.mask <<< f.position

def encode (value : Word) : Word := value <<< f.position

def decode (value : Word) : Word := (value >>> f.position) &&& f.mask

def update (value original : Word) : Word :=
  (value <<< f.position) ||| (~~~ f.maskInPlace &&& original)

/-- The values the field has room for: `(value & ~mask()) == 0`. -/
def IsValid (value : Word) : Prop := value.toNat < 2 ^ f.size

instance (value : Word) : Decidable (f.IsValid value) := inferInstanceAs (Decidable (_ < _))

variable {f g}

theorem getLsbD_mask (hf : f.size < 64) {i : ℕ} (hi : i < 64) :
    f.mask.getLsbD i = decide (i < f.size) := by
  have hp : 2 ^ f.size < 2 ^ 64 := Nat.pow_lt_pow_right (by decide) hf
  have hps : 0 < 2 ^ f.size := Nat.two_pow_pos _
  have hm : f.mask = BitVec.ofNat 64 (2 ^ f.size - 1) := by
    apply eq_of_toNat_eq
    simp only [mask, toNat_sub, toNat_shiftLeft, toNat_ofNat, Nat.shiftLeft_eq]
    omega
  rw [hm, getLsbD_ofNat, Nat.testBit_two_pow_sub_one]
  simp [hi]

theorem getLsbD_decode (hf : f.size < 64) (v : Word) {i : ℕ} (hi : i < 64) :
    (f.decode v).getLsbD i = (decide (i < f.size) && v.getLsbD (f.position + i)) := by
  rw [decode, getLsbD_and, getLsbD_ushiftRight, getLsbD_mask hf hi, Bool.and_comm]

variable {v : Word}

theorem getLsbD_of_isValid (hv : f.IsValid v) {i : ℕ} (hi : f.size ≤ i) : v.getLsbD i = false := by
  rw [← testBit_toNat]
  exact Nat.testBit_lt_two_pow (Nat.lt_of_lt_of_le hv (Nat.pow_le_pow_right (by decide) hi))

theorem getLsbD_update (hf : f.size < 64) (hv : f.IsValid v) (o : Word) {i : ℕ} (hi : i < 64) :
    (f.update v o).getLsbD i =
      if f.position ≤ i ∧ i < f.position + f.size then v.getLsbD (i - f.position)
      else o.getLsbD i := by
  have hi' : i - f.position < 64 := by omega
  rw [update, getLsbD_or, getLsbD_and, getLsbD_not, maskInPlace,
    getLsbD_shiftLeft, getLsbD_shiftLeft, getLsbD_mask hf hi']
  by_cases h1 : i < f.position
  · simp [h1, hi, Nat.not_le.mpr h1]
  by_cases h2 : i - f.position < f.size
  · have h3 : f.position ≤ i ∧ i < f.position + f.size := by omega
    simp [h1, h2, hi, h3]
  · have h3 : ¬ (f.position ≤ i ∧ i < f.position + f.size) := by omega
    simp [h1, h2, hi, h3, getLsbD_of_isValid hv (Nat.not_lt.mp h2)]

theorem decode_update (hf : f.size < 64) (hp : f.position + f.size ≤ 64)
    (hv : f.IsValid v) (o : Word) : f.decode (f.update v o) = v := by
  apply eq_of_getLsbD_eq
  intro i hi
  rw [getLsbD_decode hf _ hi]
  by_cases h : i < f.size
  · rw [getLsbD_update hf hv o (by omega), if_pos (by omega), Nat.add_sub_cancel_left]
    simp [h]
  · rw [getLsbD_of_isValid hv (Nat.not_lt.mp h)]
    simp [h]

theorem decode_update_ne (hf : f.size < 64) (hg : g.size < 64) (hp : g.position + g.size ≤ 64)
    (hfg : f.position + f.size ≤ g.position ∨ g.position + g.size ≤ f.position)
    (hv : f.IsValid v) (o : Word) : g.decode (f.update v o) = g.decode o := by
  apply eq_of_getLsbD_eq
  intro i hi
  rw [getLsbD_decode hg _ hi, getLsbD_decode hg _ hi]
  by_cases h : i < g.size
  · rw [getLsbD_update hf hv o (by omega), if_neg (by omega)]
  · simp [h]

theorem encode_decode_or (h0 : f.position = 0) (hf : f.size < 64) (hg : g.size < 64)
    (hp : g.position = f.size) (hs : f.size + g.size = 64) (v : Word) :
    f.encode (f.decode v) ||| g.encode (g.decode v) = v := by
  apply eq_of_getLsbD_eq
  intro i hi
  rw [getLsbD_or, encode, encode, getLsbD_shiftLeft, getLsbD_shiftLeft, h0, hp,
    getLsbD_decode hf _ (by omega), getLsbD_decode hg _ (by omega), h0, hp]
  by_cases h : i < f.size
  · simp [h, hi]
  · have h1 : f.size + (i - f.size) = i := by omega
    have h2 : i - f.size < g.size := by omega
    simp [h, hi, h1, h2]

end BitField

/-! ## Object tags -/

namespace RawObject

def kMarkBit : ℕ := 1
def kSizeTagPos : ℕ := 16
def kSizeTagSize : ℕ := 16
def kClassIdTagPos : ℕ := 32
def kClassIdTagSize : ℕ := 32

def markBit : BitField := ⟨kMarkBit, 1⟩
def sizeBits : BitField := ⟨kSizeTagPos, kSizeTagSize⟩
def classIdTag : BitField := ⟨kClassIdTagPos, kClassIdTagSize⟩

def kMaxSizeTag : ℕ := (2 ^ kSizeTagSize - 1) <<< kObjectAlignmentLog2

/-- `SizeTag::SizeToTagValue`. -/
def sizeToTagValue (size : ℕ) : ℕ := if size > kMaxSizeTag then 0 else size >>> kObjectAlignmentLog2

/-- `SizeTag::TagValueToSize`. -/
def tagValueToSize (value : ℕ) : ℕ := value <<< kObjectAlignmentLog2

/-- `SizeTag::decode`. -/
def sizeTagDecode (tags : Word) : ℕ := tagValueToSize (sizeBits.decode tags).toNat

/-- `SizeTag::update`. -/
def sizeTagUpdate (size : ℕ) (tags : Word) : Word :=
  sizeBits.update (BitVec.ofNat 64 (sizeToTagValue size)) tags

theorem toNat_sizeToTagValue (size : ℕ) :
    (BitVec.ofNat 64 (sizeToTagValue size)).toNat = sizeToTagValue size ∧
      sizeBits.IsValid (BitVec.ofNat 64 (sizeToTagValue size)) := by
  have h : sizeToTagValue size < 2 ^ 16 := by
    unfold sizeToTagValue kMaxSizeTag kObjectAlignmentLog2 kSizeTagSize
    rw [Nat.shiftLeft_eq, Nat.shiftRight_eq_div_pow]
    split_ifs <;> omega
  have hn : (BitVec.ofNat 64 (sizeToTagValue size)).toNat = sizeToTagValue size := by
    rw [toNat_ofNat]
    omega
  refine ⟨hn, ?_⟩
  show _ < _
  rw [hn]
  exact h

theorem sizeTag_decode_update {size : ℕ} (h : kObjectAlignment ∣ size) (tags : Word) :
    sizeTagDecode (sizeTagUpdate size tags) = if size > kMaxSizeTag then 0 else size := by
  obtain ⟨hn, hv⟩ := toNat_sizeToTagValue size
  rw [sizeTagDecode, sizeTagUpdate, BitField.decode_update (by decide) (by decide) hv, hn]
  unfold tagValueToSize sizeToTagValue
  rw [Nat.shiftLeft_eq]
  obtain ⟨k, rfl⟩ := h
  split_ifs with hs
  · rfl
  · simp only [Nat.shiftRight_eq_div_pow, kObjectAlignmentLog2, kObjectAlignment, kWordSize]
    omega

theorem sizeTagDecode_classId {cid : Word} (h : classIdTag.IsValid cid) (tags : Word) :
    sizeTagDecode (classIdTag.update cid tags) = sizeTagDecode tags := by
  rw [sizeTagDecode, sizeTagDecode, BitField.decode_update_ne (by decide) (by decide) (by decide)
    (by decide) h]

end RawObject

/-- A heap object as the collector sees it: its tags, and the size its class and length give. -/
structure RawObject where
  tags : Word
  sizeFromClass : ℕ
deriving DecidableEq, Repr

namespace RawObject

def isMarked (o : RawObject) : Bool := markBit.decode o.tags != 0

def clearMarkBit (o : RawObject) : RawObject := { o with tags := markBit.update 0 o.tags }

def size (o : RawObject) : ℕ :=
  let result := sizeTagDecode o.tags
  if result ≠ 0 then result else o.sizeFromClass

@[simp] theorem isMarked_clearMarkBit (o : RawObject) : o.clearMarkBit.isMarked = false := by
  rw [isMarked, clearMarkBit, BitField.decode_update (by decide) (by decide) (by decide)]
  rfl

@[simp] theorem size_clearMarkBit (o : RawObject) : o.clearMarkBit.size = o.size := by
  have h : sizeTagDecode o.clearMarkBit.tags = sizeTagDecode o.tags := by
    rw [sizeTagDecode, sizeTagDecode, clearMarkBit,
      BitField.decode_update_ne (by decide) (by decide) (by decide) (by decide) (by decide)]
  rw [size, size, h]
  rfl

end RawObject

end DartSdk.Vm
