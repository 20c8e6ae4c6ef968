import DartSdk.Lib.Bits
import Mathlib.Data.List.GetD

/-!
# Growing bitmaps (`BitmapBuilder`)

The backing store need not reach as far as the length; bits beyond it are false.  Setting a bit at or
above the length extends the store, but a bit below the length is taken to be in it.

* `Represents.set`, `Represents.setLength`: what the calls do to the bits;
* `bitmapBuilder_run`: **a bitmap is an unbounded vector of bits as long as no bit is set that is below
  its length and beyond its store**;
* `setLength_set`: such a bit is written outside of the store.
-/

namespace DartSdk.Vm

open List Function

/-- The length and the backing store.  Offsets below 0 are fatal errors everywhere. -/
structure BitmapBuilder where
  length : ℕ
  data : List (BitVec 8)
  deriving DecidableEq

namespace BitmapBuilder

section Model

def kInitialSizeInBytes : ℕ := 16
def kIncrementSizeInBytes : ℕ := 16

def new : BitmapBuilder := ⟨0, replicate kInitialSizeInBytes 0⟩

def mask (bitOffset : ℕ) : BitVec 8 := 1 <<< (bitOffset % 8)

/-- The bits of byte `k` from `newLength` on are cleared. -/
def clear (newLength k : ℕ) (byte : BitVec 8) : BitVec 8 :=
  if k < newLength / 8 then byte else if k = newLength / 8 then byte &&& (mask newLength - 1) else 0

variable (b : BitmapBuilder) (bitOffset : ℕ) (value : Bool)

def setLength (newLength : ℕ) : BitmapBuilder :=
  ⟨newLength, if newLength < b.length then b.data.mapIdx (clear newLength) else b.data⟩

/-- `data_[byte_offset]`. -/
def byte (byteOffset : ℕ) : BitVec 8 := b.data.getD byteOffset 0

def get : Bool :=
  decide (bitOffset < b.length) && decide (bitOffset / 8 < b.data.length) &&
    (b.byte (bitOffset / 8) &&& mask bitOffset) != 0#8

/-- `SetBit`, which has no result outside of the backing store. -/
def setBit : Option BitmapBuilder :=
  let byteOffset := bitOffset / 8
  let old := b.byte byteOffset
  if bitOffset < b.length ∧ byteOffset < b.data.length then
    some { b with
      data := b.data.set byteOffset (if value then old ||| mask bitOffset else old &&& ~~~mask bitOffset) }
  else none

/-- The part of `Set` that grows the backing store. -/
def grow : BitmapBuilder :=
  if bitOffset / 8 < b.data.length then b
  else
    let size := (bitOffset / 8 + 1 + (kIncrementSizeInBytes - 1)) / kIncrementSizeInBytes *
      kIncrementSizeInBytes
    { b with data := b.data ++ replicate (size - b.data.length) 0 }

def set : Option BitmapBuilder :=
  if bitOffset < b.length then b.setBit bitOffset value
  else if value then ({ b with length := bitOffset + 1 }.grow bitOffset).setBit bitOffset value
  else some { b with length := bitOffset + 1 }

inductive Call
  | set (bitOffset : ℕ) (value : Bool)
  | setRange (min max : ℕ) (value : Bool)
  | setLength (newLength : ℕ)

def call : Call → Option BitmapBuilder
  | .set bitOffset value => b.set bitOffset value
  | .setRange min max value => (range' min (max + 1 - min)).foldlM (fun b i => b.set i value) b
  | .setLength newLength => some (b.setLength newLength)

end Model

/-- An unbounded vector of bits, with a length. -/
structure Bits where
  length : ℕ
  bit : ℕ → Bool

namespace Bits

variable (a : Bits)

def set (value : Bool) (i : ℕ) : Bits := ⟨max a.length (i + 1), update a.bit i value⟩

def call : Call → Bits
  | .set i value => a.set value i
  | .setRange min max value => (range' min (max + 1 - min)).foldl (set · value) a
  | .setLength newLength => ⟨newLength, fun i => decide (i < newLength) && a.bit i⟩

end Bits

section Refinement

variable {b : BitmapBuilder} {a : Bits} {i : ℕ}

def bitAt (b : BitmapBuilder) (i : ℕ) : Bool := (b.byte (i / 8)).getLsbD (i % 8)

structure Represents (b : BitmapBuilder) (a : Bits) : Prop where
  length : b.length = a.length
  bit : ∀ i, b.bitAt i = a.bit i
  excluded : ∀ i, b.length ≤ i → a.bit i = false

theorem Represents.get_eq (h : Represents b a) (i : ℕ) : b.get i = a.bit i := by
  have hb : (b.byte (i / 8) &&& mask i != 0#8) = a.bit i := by
    rw [← h.bit]
    exact Bits.and_twoPow_bne_zero _ (Nat.mod_lt i (by decide))
  rw [get, hb]
  by_cases hi : i < b.length
  · by_cases hstore : i / 8 < b.data.length
    · simp [hi, hstore]
    · have hz : a.bit i = false := by
        rw [← h.bit, bitAt, byte, getD_eq_default _ _ (Nat.le_of_not_lt hstore)]
        exact BitVec.getLsbD_zero
      rw [hz, Bool.and_false]
  · rw [h.excluded i (Nat.le_of_not_lt hi), Bool.and_false]

theorem setBit_spec (value : Bool) (hi : i < b.length) (hs : i / 8 < b.data.length) :
    ∃ b', b.setBit i value = some b' ∧ b'.length = b.length ∧ b'.data.length = b.data.length ∧
      ∀ j, b'.bitAt j = if j = i then value else b.bitAt j := by
  refine ⟨_, if_pos ⟨hi, hs⟩, rfl, length_set, fun j => ?_⟩
  simp only [bitAt, byte, getD_eq_getElem?_getD, getElem?_set]
  by_cases hbyte : i / 8 = j / 8
  · rw [if_pos hbyte, if_pos hs, Option.getD_some, hbyte]
    exact (Bits.getLsbD_update _ value (Nat.mod_lt j (by decide))).trans (if_congr (by omega) rfl rfl)
  · have hji : j ≠ i := by
      rintro rfl
      exact hbyte rfl
    rw [if_neg hbyte, if_neg hji]

theorem grow_spec (b : BitmapBuilder) (i : ℕ) : (b.grow i).length = b.length ∧
    i / 8 < (b.grow i).data.length ∧ ∀ j, (b.grow i).bitAt j = b.bitAt j := by
  rw [grow]
  split_ifs with hs
  · exact ⟨rfl, hs, fun _ => rfl⟩
  refine ⟨rfl, ?_, fun j => ?_⟩
  · simp only [length_append, length_replicate, kIncrementSizeInBytes]
    omega
  · simp only [bitAt, byte, getD_eq_getElem?_getD, getElem?_append]
    split_ifs with hj
    · rfl
    · rw [getElem?_eq_none (Nat.le_of_not_lt hj), getElem?_replicate]
      split_ifs <;> rfl

/-- **`Set` of a bit that is in the store, or at or above the length.** -/
theorem Represents.set (h : Represents b a) (value : Bool) (hi : i < b.length → i / 8 < b.data.length) :
    ∃ b', b.set i value = some b' ∧ Represents b' (a.set value i) ∧
      (i < b.length → b'.data.length = b.data.length) := by
  have hln := h.length
  have hbt (j : ℕ) : (if j = i then value else b.bitAt j) = (a.set value i).bit j := by
    rw [h.bit]
    exact (update_apply a.bit i value j).symm
  have he (j : ℕ) (hj : max a.length (i + 1) ≤ j) : (a.set value i).bit j = false := by
    rw [← hbt, if_neg (by omega), h.bit, h.excluded j (by omega)]
  by_cases hlt : i < b.length
  · obtain ⟨b', hs, hl, hsz, hb⟩ := setBit_spec value hlt (hi hlt)
    have hm : b'.length = max a.length (i + 1) := by omega
    exact ⟨b', (if_pos hlt).trans hs, ⟨hm, fun j => (hb j).trans (hbt j), hm ▸ he⟩,
      fun _ => hsz⟩
  have hm : i + 1 = max a.length (i + 1) := by omega
  rw [BitmapBuilder.set, if_neg hlt]
  cases value with
  | true =>
    obtain ⟨hl, hst, hg⟩ := grow_spec { b with length := i + 1 } i
    obtain ⟨b', hs, hl', -, hb⟩ := setBit_spec true (hl ▸ Nat.lt_succ_self i) hst
    have hm' := (hl'.trans hl).trans hm
    refine ⟨b', hs, ⟨hm', fun j => ?_, hm' ▸ he⟩, fun h => absurd h hlt⟩
    rw [hb, hg]
    exact hbt j
  | false =>
    refine ⟨_, rfl, ⟨hm, fun j => Eq.trans ?_ (hbt j), hm ▸ he⟩, fun h => absurd h hlt⟩
    show b.bitAt j = _
    split_ifs with hj
    · rw [h.bit, h.excluded j (by omega)]
    · rfl

/-- The loop of `SetRange`: only what is below the length at its beginning has to be in the store. -/
theorem Represents.setAll (h : Represents b a) (value : Bool) {offsets : List ℕ}
    (ha : offsets.Pairwise (· < ·)) (hi : ∀ i ∈ offsets, i < b.length → i / 8 < b.data.length) :
    ∃ b', offsets.foldlM (fun b i => b.set i value) b = some b' ∧
      Represents b' (offsets.foldl (Bits.set · value) a) := by
  induction offsets generalizing b a with
  | nil => exact ⟨b, rfl, h⟩
  | cons i offsets ih =>
    obtain ⟨hlt, ha⟩ := pairwise_cons.mp ha
    obtain ⟨b₁, hst, h₁, hs⟩ := h.set value (hi i mem_cons_self)
    have hln : b₁.length = max a.length (i + 1) := h₁.length
    have hl := h.length
    have hi₁ (j : ℕ) (hj : j ∈ offsets) (hjl : j < b₁.length) : j / 8 < b₁.data.length := by
      have hij := hlt j hj
      rw [hs (by omega)]
      exact hi j (mem_cons_of_mem i hj) (by omega)
    obtain ⟨b', hr, h'⟩ := ih h₁ ha hi₁
    exact ⟨b', by rw [foldlM_cons, hst]; exact hr, h'⟩

theorem getLsbD_clear (n : ℕ) (x : BitVec 8) :
    (clear n (i / 8) x).getLsbD (i % 8) = (decide (i < n) && x.getLsbD (i % 8)) := by
  have hm : ∀ k j : Fin 8, ((1 : BitVec 8) <<< k.val - 1).getLsbD j = decide (j < k) := by decide
  have hmd (k : ℕ) : k % 8 < 8 := Nat.mod_lt k (by decide)
  rw [clear]
  split_ifs with hlt heq
  · rw [decide_eq_true (by omega), Bool.true_and]
  · have hb : (mask n - 1).getLsbD (i % 8) = decide (i % 8 < n % 8) :=
      hm ⟨n % 8, hmd n⟩ ⟨i % 8, hmd i⟩
    rw [BitVec.getLsbD_and, hb, Bool.and_comm]
    congr 1
    exact decide_eq_decide.mpr (by omega)
  · rw [decide_eq_false (by omega), Bool.false_and]
    exact BitVec.getLsbD_zero

/-- **`SetLength` clears the bits that it excludes.** -/
theorem Represents.setLength (h : Represents b a) (n : ℕ) :
    Represents (b.setLength n) (a.call (.setLength n)) := by
  refine ⟨rfl, fun i => ?_, fun i hi => ?_⟩
  · show _ = (decide (i < n) && a.bit i)
    rw [← h.bit]
    by_cases hshort : n < b.length
    · have hb : (b.setLength n).byte (i / 8) = clear n (i / 8) (b.byte (i / 8)) := by
        simp only [byte, BitmapBuilder.setLength, if_pos hshort, getD_eq_getElem?_getD, getElem?_mapIdx]
        cases b.data[i / 8]? with
        | some x => rfl
        | none => simp [clear]
      rw [bitAt, hb, getLsbD_clear]
      rfl
    · have hs : (b.setLength n).bitAt i = b.bitAt i := by
        rw [bitAt, byte, BitmapBuilder.setLength, if_neg hshort]
        rfl
      by_cases hi : i < n
      · rw [hs, decide_eq_true hi, Bool.true_and]
      · rw [hs, h.bit, h.excluded i (by omega), Bool.and_false]
  · show (decide (i < n) && a.bit i) = false
    have hle : n ≤ i := hi
    rw [decide_eq_false (Nat.not_lt.mpr hle), Bool.false_and]

/-- The offsets of the bits that a call sets. -/
def Call.offsets : Call → List ℕ
  | .set i _ => [i]
  | .setRange min max _ => range' min (max + 1 - min)
  | .setLength _ => []

/-- No bit is set that is below the length and beyond the store, by any of the calls. -/
def covers : BitmapBuilder → List Call → Bool
  | _, [] => true
  | b, c :: calls => (c.offsets.all fun i => decide (i < b.length → i / 8 < b.data.length)) &&
    (b.call c).all (covers · calls)

theorem Represents.call (h : Represents b a) {c : Call}
    (hi : ∀ i ∈ c.offsets, i < b.length → i / 8 < b.data.length) :
    ∃ b', b.call c = some b' ∧ Represents b' (a.call c) := by
  cases c with
  | set i value =>
    obtain ⟨b', hs, h', -⟩ := h.set value (hi i mem_cons_self)
    exact ⟨b', hs, h'⟩
  | setRange min max value => exact h.setAll value pairwise_lt_range' hi
  | setLength n => exact ⟨_, rfl, h.setLength n⟩

theorem Represents.run (h : Represents b a) {calls : List Call} (hc : covers b calls) :
    ∃ b', calls.foldlM BitmapBuilder.call b = some b' ∧ Represents b' (calls.foldl Bits.call a) := by
  induction calls generalizing b a with
  | nil => exact ⟨b, rfl, h⟩
  | cons c calls ih =>
    simp only [covers, Bool.and_eq_true, all_eq_true, decide_eq_true_eq] at hc
    obtain ⟨b₁, hcl, h₁⟩ := h.call hc.1
    rw [hcl] at hc
    obtain ⟨b', hr, h'⟩ := ih h₁ hc.2
    exact ⟨b', by rw [foldlM_cons, hcl]; exact hr, h'⟩

/-- **The bitmap is a vector of bits**: after any calls, of which none sets a bit that is below the
length and beyond the store at that time, every access has been inside the store, and `Length` and
`Get` are those of the vector. -/
theorem bitmapBuilder_run (calls : List Call) (hcovers : covers new calls = true) :
    ∃ b, calls.foldlM BitmapBuilder.call new = some b ∧
      b.length = (calls.foldl Bits.call ⟨0, fun _ => false⟩).length ∧
      ∀ i, b.get i = (calls.foldl Bits.call ⟨0, fun _ => false⟩).bit i := by
  have hn : Represents new ⟨0, fun _ => false⟩ := by
    refine ⟨rfl, fun i => ?_, fun _ _ => rfl⟩
    simp only [bitAt, byte, new, getD_eq_getElem?_getD, getElem?_replicate]
    split_ifs <;> exact BitVec.getLsbD_zero
  obtain ⟨b, hb, h⟩ := hn.run hcovers
  exact ⟨b, hb, h.length, h.get_eq⟩

theorem bitmapBuilder_run_shortened :
    ∃ b, [Call.set 200 true, .setRange 3 9 true, .setLength 5].foldlM BitmapBuilder.call new = some b ∧
      b.length = 5 ∧ b.get 4 = true ∧ b.get 200 = false := by
  obtain ⟨b, hb, hl, hg⟩ :=
    bitmapBuilder_run [.set 200 true, .setRange 3 9 true, .setLength 5] (by decide)
  exact ⟨b, hb, hl, hg 4, hg 200⟩

/-- The store has 16 bytes, and bit 128 would be in the next one. -/
theorem setLength_set : [Call.setLength 129, .set 128 true].foldlM BitmapBuilder.call new = none := by
  decide

end Refinement

end BitmapBuilder

end DartSdk.Vm
