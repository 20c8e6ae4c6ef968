import DartSdk.Lib.Bits
import DartSdk.Lib.Entries

/-!
# Vm.BitSet — the fixed-length bit set of `vm/bit_set.h`

`BitSet<N>` keeps its bits in 64-bit words.  The operations work on whole words with masks and with
the numbers of leading and trailing zeros; `bit` reads a single bit, and each operation is
characterised by what it does to `bit`:

* `test_eq_bit`, `bit_set`: `Test` and `Set`;
* `next_spec`: `Next` finds the first bit at or above a position;
* `clearLastAndFindPrevious_spec`: clearing the last bit finds the one that is last then.
-/

namespace DartSdk.Vm

open List

def kBitsPerWordLog2 : ℕ := 6

/-- `Utils::CountTrailingZeros` and `Utils::CountLeadingZeros` of a non-zero word. -/
def countTrailingZeros (x : BitVec 64) : ℕ := x.ctz.toNat

def countLeadingZeros (x : BitVec 64) : ℕ := x.clz.toNat

structure BitSet (N : ℕ) where
  data : List (BitVec 64)
  length_eq : data.length = 1 + (N - 1) / 64
deriving DecidableEq, Repr

namespace BitSet

variable {N : ℕ}

variable (s : BitSet N)

variable (i : ℕ)

/-- `data_[w]`. -/
def word (w : ℕ) : BitVec 64 := s.data.getD w 0#64

/-- `1 << (i & (kBitsPerWord - 1))`. -/
def mask : BitVec 64 := 1#64 <<< (i &&& 63)

def reset (N : ℕ) : BitSet N := ⟨List.replicate (1 + (N - 1) / 64) 0#64, length_replicate⟩

def setWord (w : ℕ) (x : BitVec 64) : BitSet N :=
  ⟨s.data.set w x, by rw [length_set, s.length_eq]⟩

def set (value : Bool) : BitSet N :=
  let w := i >>> kBitsPerWordLog2
  s.setWord w (if value then s.word w ||| mask i else s.word w &&& ~~~ mask i)

def test : Bool := (s.word (i >>> kBitsPerWordLog2) &&& mask i) != 0#64

/-- The loop of `Next`: the first bit of the words from `w` on. -/
def nextFrom (s : BitSet N) (w : ℕ) : ℤ :=
  if w < s.data.length then
    if s.word w ≠ 0#64 then ((w <<< kBitsPerWordLog2) + countTrailingZeros (s.word w) : ℕ)
    else s.nextFrom (w + 1)
  else -1
termination_by s.data.length - w

def next : ℤ :=
  let w := i >>> kBitsPerWordLog2
  let bits := s.word w &&& (BitVec.allOnes 64 <<< (i &&& 63))
  if bits ≠ 0#64 then ((w <<< kBitsPerWordLog2) + countTrailingZeros bits : ℕ)
  else s.nextFrom (w + 1)

/-- `((w + 1) << kBitsPerWordLog2) - CountLeadingZeros(bits) - 1`. -/
def lastOf (w : ℕ) (bits : BitVec 64) : ℤ :=
  ((w + 1) <<< kBitsPerWordLog2 : ℕ) - (countLeadingZeros bits : ℤ) - 1

/-- The loop of `Last`, over the words below `w`. -/
def lastBelow (s : BitSet N) : ℕ → ℤ
  | 0 => -1
  | w + 1 => if s.word w ≠ 0#64 then lastOf w (s.word w) else s.lastBelow w

def last : ℤ := s.lastBelow s.data.length

/-- The loop of `ClearLastAndFindPrevious`, with the word `w` in `bits`. -/
def findPrevious (s : BitSet N) : ℕ → BitVec 64 → ℤ
  | 0, bits => if bits = 0#64 then -1 else lastOf 0 bits
  | w + 1, bits => if bits = 0#64 then s.findPrevious w (s.word w) else lastOf (w + 1) bits

def clearLastAndFindPrevious (currentLast : ℕ) : BitSet N × ℤ :=
  let w := currentLast >>> kBitsPerWordLog2
  let bits := s.word w ^^^ mask currentLast
  let s := s.setWord w bits
  (s, s.findPrevious w bits)

def bit : Bool := (s.word (i / 64)).getLsbD (i % 64)

/-! ## Words -/

theorem shiftRight_log2 : i >>> kBitsPerWordLog2 = i / 64 := Nat.shiftRight_eq_div_pow i 6

theorem shiftLeft_log2 (w : ℕ) : w <<< kBitsPerWordLog2 = w * 64 := Nat.shiftLeft_eq w 6

theorem and_63 : i &&& 63 = i % 64 := Nat.and_two_pow_sub_one_eq_mod i 6

theorem word_of_le {s : BitSet N} {w : ℕ} (h : s.data.length ≤ w) : s.word w = 0#64 := by
  rw [word, getD_eq_getElem?_getD, getElem?_eq_none h]
  rfl

theorem word_setWord {w : ℕ} (hw : w < s.data.length) (x : BitVec 64) (v : ℕ) :
    (s.setWord w x).word v = if w = v then x else s.word v :=
  Entries.getD_set hw x 0#64 v

theorem mask_eq : mask i = BitVec.twoPow 64 (i % 64) := by
  rw [mask, and_63]
  rfl

theorem bit_of_word_zero {s : BitSet N} {i : ℕ} (h : s.word (i / 64) = 0#64) : s.bit i = false := by
  rw [bit, h]
  exact BitVec.getLsbD_zero

theorem word_ne_zero_of_bit {s : BitSet N} {i : ℕ} (h : s.bit i) : s.word (i / 64) ≠ 0#64 := by
  intro h0
  rw [bit_of_word_zero h0] at h
  cases h

/-! ## `Set` and `Test` -/

theorem test_eq_bit : s.test i = s.bit i := by
  rw [test, shiftRight_log2, mask_eq]
  exact Bits.and_twoPow_bne_zero _ (Nat.mod_lt i (by decide))

theorem bit_setWord {w : ℕ} (hw : w < s.data.length) (x : BitVec 64) (j : ℕ) :
    (s.setWord w x).bit j = if w = j / 64 then x.getLsbD (j % 64) else s.bit j := by
  rw [bit, word_setWord s hw]
  split_ifs <;> rfl

theorem bit_set {i : ℕ} (hi : i / 64 < s.data.length) (value : Bool) (j : ℕ) :
    (s.set i value).bit j = if i = j then value else s.bit j := by
  rw [set, shiftRight_log2, bit_setWord s hi, mask_eq,
    Bits.getLsbD_update _ _ (Nat.mod_lt j (by decide))]
  by_cases hw : i / 64 = j / 64
  · rw [if_pos hw, hw]
    exact if_congr (by omega) rfl rfl
  · have h : i ≠ j := by rintro rfl; exact hw rfl
    rw [if_neg hw, if_neg h]

theorem bit_reset : (reset N).bit i = false := by
  apply bit_of_word_zero
  rw [word, reset, getD_eq_getElem?_getD, getElem?_replicate]
  split_ifs <;> rfl

/-! ## `Next` -/

theorem ctz_lt {x : BitVec 64} (h : x ≠ 0#64) : x.ctz.toNat < 64 := by
  have := BitVec.ctz_lt_iff_ne_zero.mpr h
  exact this

theorem bit_eq (w : ℕ) {k : ℕ} (hk : k < 64) : s.bit (w * 64 + k) = (s.word w).getLsbD k := by
  have h1 : (w * 64 + k) / 64 = w := by omega
  have h2 : (w * 64 + k) % 64 = k := by omega
  rw [bit, h1, h2]

/-- The search found the first bit, in the order `R`, of those in `P`, or `-1`. -/
def Finds (r : ℤ) (P : ℕ → Prop) (R : ℕ → ℕ → Prop) : Prop :=
  (r = -1 ∧ ∀ j, P j → s.bit j = false) ∨
    ∃ j : ℕ, r = j ∧ P j ∧ s.bit j = true ∧ ∀ k, P k → R k j → s.bit k = false

theorem Finds.extend {r : ℤ} {P P' : ℕ → Prop} {R : ℕ → ℕ → Prop} {s : BitSet N}
    (h : s.Finds r P R) (hP : ∀ k, P k → P' k) (hc : ∀ k, P' k → P k ∨ s.bit k = false) :
    s.Finds r P' R := by
  rcases h with ⟨hr, h⟩ | ⟨j, hr, hj, hbit, h⟩
  · exact .inl ⟨hr, fun j hj => (hc j hj).elim (h j) id⟩
  · exact .inr ⟨j, hr, hP j hj, hbit, fun k hk hkj => (hc k hk).elim (h k · hkj) id⟩

theorem nextFrom_spec (w : ℕ) : s.Finds (s.nextFrom w) (w * 64 ≤ ·) (· < ·) := by
  induction w using nextFrom.induct s with
  | case1 w hw hne =>
    right
    refine ⟨w * 64 + (s.word w).ctz.toNat, ?_, by omega, ?_, ?_⟩
    · rw [nextFrom, if_pos hw, if_pos hne, shiftLeft_log2]
      rfl
    · rw [bit_eq s w (ctz_lt hne)]
      exact BitVec.getLsbD_true_ctz_of_ne_zero hne
    · intro k h1 h2
      obtain ⟨d, rfl⟩ := Nat.exists_eq_add_of_le h1
      have hd : d < (s.word w).ctz.toNat := by omega
      rw [bit_eq s w (Nat.lt_trans hd (ctz_lt hne))]
      exact BitVec.getLsbD_false_of_lt_ctz hd
  | case2 w hw h0 ih =>
    have h0' : s.word w = 0#64 := by simpa using h0
    rw [nextFrom, if_pos hw, if_neg h0]
    refine ih.extend (fun k hk => by omega) fun k hk => ?_
    by_cases hk' : k < (w + 1) * 64
    · refine .inr (bit_of_word_zero ?_)
      rw [show k / 64 = w by omega, h0']
    · exact .inl (by omega)
  | case3 w hw =>
    refine .inl ⟨by rw [nextFrom, if_neg hw], fun j hj => ?_⟩
    apply bit_of_word_zero
    exact word_of_le (by omega)

/-- **`Next`**: the first bit at or above `i`, or `-1`. -/
theorem next_spec : s.Finds (s.next i) (i ≤ ·) (· < ·) := by
  obtain ⟨v, d, rfl, hd⟩ : ∃ v d, i = v * 64 + d ∧ d < 64 := ⟨i / 64, i % 64, by omega, by omega⟩
  have hdv : (v * 64 + d) / 64 = v := by omega
  have hm : (v * 64 + d) % 64 = d := by omega
  have hb : ∀ k, k < 64 → (s.word v &&& (BitVec.allOnes 64 <<< d)).getLsbD k =
      ((s.word v).getLsbD k && decide (d ≤ k)) := by
    intro k hk
    rw [BitVec.getLsbD_and, BitVec.getLsbD_shiftLeft, BitVec.getLsbD_allOnes]
    have h1 : k - d < 64 := by omega
    by_cases h : k < d
    · simp [h, Nat.not_le.mpr h]
    · simp [h, hk, h1, Nat.not_lt.mp h]
  simp only [next, shiftRight_log2, and_63, hdv, hm, shiftLeft_log2]
  by_cases hne : s.word v &&& (BitVec.allOnes 64 <<< d) = 0#64
  · -- nothing left in the word of `i`
    rw [if_neg (by simpa using hne)]
    refine (s.nextFrom_spec (v + 1)).extend (fun k hk => by omega) fun k hk => ?_
    by_cases hk' : k < (v + 1) * 64
    · obtain ⟨e, rfl⟩ := Nat.exists_eq_add_of_le (show v * 64 ≤ k by omega)
      have he : e < 64 := by omega
      have := hb e he
      rw [hne, BitVec.getLsbD_zero] at this
      rw [bit_eq s v he]
      exact .inr (by simpa [show d ≤ e by omega] using this.symm)
    · exact .inl (by omega)
  · rw [if_pos hne]
    set x := s.word v &&& (BitVec.allOnes 64 <<< d) with hx
    have hlt := ctz_lt hne
    have ht := BitVec.getLsbD_true_ctz_of_ne_zero hne
    rw [hx, hb _ (hx ▸ hlt), ← hx, Bool.and_eq_true, decide_eq_true_eq] at ht
    refine .inr ⟨v * 64 + x.ctz.toNat, rfl, by omega, ?_, ?_⟩
    · rw [bit_eq s v hlt]
      exact ht.1
    · intro k h1 h2
      obtain ⟨e, rfl⟩ := Nat.exists_eq_add_of_le (show v * 64 ≤ k by omega)
      have he : e < x.ctz.toNat := by omega
      have := BitVec.getLsbD_false_of_lt_ctz he
      rw [hx, hb e (by omega)] at this
      rw [bit_eq s v (by omega)]
      simpa [show d ≤ e by omega] using this

/-! ## `Last` and `ClearLastAndFindPrevious` -/

theorem lastOf_spec (w : ℕ) {x : BitVec 64} (hx : x ≠ 0#64) :
    ∃ t, t < 64 ∧ lastOf w x = (w * 64 + t : ℕ) ∧ x.getLsbD t ∧
      ∀ k, t < k → x.getLsbD k = false := by
  have hlt : x.clz.toNat < 64 := BitVec.clz_lt_iff_ne_zero.mpr hx
  refine ⟨63 - x.clz.toNat, by omega, ?_, ?_, ?_⟩
  · rw [lastOf, shiftLeft_log2]
    show ((w + 1) * 64 : ℕ) - (x.clz.toNat : ℤ) - 1 = _
    omega
  · exact BitVec.getLsbD_true_clz_of_ne_zero (by decide) hx
  · intro k hk
    rw [← BitVec.testBit_toNat]
    apply Nat.testBit_lt_two_pow
    calc x.toNat < 2 ^ (64 - x.clz.toNat) := BitVec.toNat_lt_two_pow_sub_clz
      _ ≤ 2 ^ k := Nat.pow_le_pow_right (by decide) (by omega)

theorem findPrevious_eq (w : ℕ) : s.findPrevious w (s.word w) = s.lastBelow (w + 1) := by
  induction w with
  | zero =>
    rw [findPrevious, lastBelow]
    by_cases h : s.word 0 = 0#64 <;> simp [h, lastBelow]
  | succ w ih =>
    rw [findPrevious, lastBelow]
    by_cases h : s.word (w + 1) = 0#64 <;> simp [h, ih]

theorem lastBelow_spec (w : ℕ) : s.Finds (s.lastBelow w) (· < w * 64) (· > ·) := by
  induction w with
  | zero => exact .inl ⟨rfl, by omega⟩
  | succ w ih =>
    rw [lastBelow]
    by_cases h : s.word w = 0#64
    · rw [if_neg (by simpa using h)]
      refine ih.extend (fun k hk => by omega) fun k hk => ?_
      by_cases hk' : k < w * 64
      · exact .inl hk'
      · refine .inr (bit_of_word_zero ?_)
        rw [show k / 64 = w by omega, h]
    · rw [if_pos h]
      obtain ⟨t, ht, h1, h2, h3⟩ := lastOf_spec w h
      refine .inr ⟨w * 64 + t, h1, by omega, by rw [bit_eq s w ht, h2], fun k hkw hk => ?_⟩
      obtain ⟨e, rfl⟩ := Nat.exists_eq_add_of_le (show w * 64 ≤ k by omega)
      rw [bit_eq s w (by omega)]
      exact h3 e (by omega)

/-- **`ClearLastAndFindPrevious`**: called with the last bit, it clears that bit and returns the last
one of the rest, or `-1`. -/
theorem clearLastAndFindPrevious_spec {c : ℕ} (hc : s.bit c)
    (hl : ∀ j, c < j → s.bit j = false) :
    (∀ j, (s.clearLastAndFindPrevious c).1.bit j = if c = j then false else s.bit j) ∧
    (((s.clearLastAndFindPrevious c).2 = -1 ∧ ∀ j, (s.clearLastAndFindPrevious c).1.bit j = false) ∨
      ∃ j : ℕ, (s.clearLastAndFindPrevious c).2 = j ∧
        (s.clearLastAndFindPrevious c).1.bit j = true ∧
        ∀ k, j < k → (s.clearLastAndFindPrevious c).1.bit k = false) := by
  have hw : c / 64 < s.data.length := by
    by_contra hle
    exact word_ne_zero_of_bit hc (word_of_le (by omega))
  have hb : ∀ j, (s.clearLastAndFindPrevious c).1.bit j = if c = j then false else s.bit j := by
    intro j
    rw [clearLastAndFindPrevious, shiftRight_log2]
    rw [bit_setWord s hw, BitVec.getLsbD_xor, mask_eq, BitVec.getLsbD_twoPow]
    by_cases hcj : c = j
    · subst hcj
      rw [if_pos rfl, if_pos rfl, ← bit, hc]
      simp [Nat.mod_lt]
    rw [if_neg hcj]
    split_ifs with h
    · have h' : ¬ c % 64 = j % 64 := by omega
      rw [h]
      simp [h', bit]
    · rfl
  refine ⟨hb, ?_⟩
  set s' := (s.clearLastAndFindPrevious c).1 with hs'
  have hp : (s.clearLastAndFindPrevious c).2 = s'.lastBelow (c / 64 + 1) := by
    rw [hs', ← findPrevious_eq, clearLastAndFindPrevious, shiftRight_log2, word_setWord s hw, if_pos rfl]
  rw [hp]
  -- the bits of the higher words were clear before
  have ha : ∀ j, (c / 64 + 1) * 64 ≤ j → s'.bit j = false := by
    intro j hj
    rw [hb, if_neg (by omega)]
    exact hl j (by omega)
  have hal : s'.Finds _ (fun _ => True) (· > ·) :=
    (s'.lastBelow_spec (c / 64 + 1)).extend (fun _ _ => trivial) fun k _ =>
      (Nat.lt_or_ge k _).imp_right (ha k)
  simpa [Finds] using hal

end BitSet

end DartSdk.Vm
