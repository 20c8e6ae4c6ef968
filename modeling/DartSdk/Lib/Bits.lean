import Mathlib.Tactic.Ring

/-!
# Bits — single bits of a machine word, and assembling it from groups of bits

A bit is read with a mask that has one bit, set with the mask and cleared with its complement.
Variable-length formats rebuild a word by or-ing ever higher groups into an accumulator that only
occupies the bits below.  `ofNat_or_shiftLeft` says that this is integer arithmetic modulo `2 ^ N`.
-/

namespace DartSdk.Bits

theorem and_twoPow_bne_zero {N i : ℕ} (x : BitVec N) (hi : i < N) :
    (x &&& BitVec.twoPow N i != 0#N) = x.getLsbD i := by
  rw [BitVec.and_twoPow]
  split_ifs with hb
  · rw [hb, bne_iff_ne]
    intro hz
    have hm : (BitVec.twoPow N i).getLsbD i := by simp [hi]
    rw [hz, BitVec.getLsbD_zero] at hm
    cases hm
  · simpa using hb

theorem getLsbD_update {N i j : ℕ} (x : BitVec N) (value : Bool) (hj : j < N) :
    (if value then x ||| BitVec.twoPow N i else x &&& ~~~BitVec.twoPow N i).getLsbD j =
      if i = j then value else x.getLsbD j := by
  cases value with
  | true =>
    rw [if_pos rfl, BitVec.getLsbD_or, BitVec.getLsbD_twoPow]
    split_ifs with h <;> simp [h, hj]
  | false =>
    rw [if_neg Bool.false_ne_true, BitVec.getLsbD_and, BitVec.getLsbD_not, BitVec.getLsbD_twoPow]
    split_ifs with h <;> simp [h, hj]

theorem ofNat_and_shiftLeft {N s r : ℕ} (hr : r < 2 ^ s) (x : BitVec N) :
    BitVec.ofNat N r &&& x <<< s = 0#N := by
  apply BitVec.eq_of_getLsbD_eq
  intro i hi
  simp only [BitVec.getLsbD_and, BitVec.getLsbD_shiftLeft, BitVec.getLsbD_ofNat]
  by_cases his : i < s
  · simp [his]
  · have hri : r < 2 ^ i := lt_of_lt_of_le hr (Nat.pow_le_pow_right (by omega) (by omega))
    simp [Nat.testBit_lt_two_pow hri]

theorem shiftLeft_ofInt (N s : ℕ) (x : ℤ) :
    BitVec.ofInt N x <<< s = BitVec.ofInt N (x * 2 ^ s) := by
  rw [BitVec.shiftLeft_eq_mul_twoPow, BitVec.ofInt_mul]
  congr 1
  apply BitVec.eq_of_toNat_eq
  rw [BitVec.toNat_twoPow, BitVec.toNat_ofInt]
  have h : ((2 : ℤ) ^ s % ((2 ^ N : ℕ) : ℤ)) = ((2 ^ s % 2 ^ N : ℕ) : ℤ) := by push_cast; rfl
  rw [h, Int.toNat_natCast]

/-- **Accumulation**: or-ing `x` in above the `s` low bits held by the accumulator adds
`x * 2 ^ s`. -/
theorem ofNat_or_shiftLeft {N s r : ℕ} (hr : r < 2 ^ s) (x : ℤ) :
    BitVec.ofNat N r ||| BitVec.ofInt N x <<< s = BitVec.ofInt N (r + x * 2 ^ s) := by
  rw [← BitVec.add_eq_or_of_and_eq_zero _ _ (ofNat_and_shiftLeft hr _), shiftLeft_ofInt,
    BitVec.ofInt_add, BitVec.ofInt_natCast]

/-- Or-ing ones in from bit `k` upwards keeps the low bits and makes the word negative. -/
theorem or_ofInt_neg_pow {N : ℕ} (x : BitVec N) (k : ℕ) :
    x ||| BitVec.ofInt N (-2 ^ k) = BitVec.ofInt N ((x.toNat % 2 ^ k : ℕ) - 2 ^ k) := by
  have e : BitVec.ofInt N (-2 ^ k) = BitVec.ofInt N (-1) <<< k := by
    rw [shiftLeft_ofInt, neg_one_mul]
  have ho : BitVec.ofInt N (-1) = BitVec.allOnes N := by
    rw [← BitVec.neg_one_eq_allOnes, BitVec.ofInt_neg]
    rfl
  have h := ofNat_or_shiftLeft (N := N) (Nat.mod_lt x.toNat (Nat.two_pow_pos k)) (-1)
  rw [neg_one_mul, ← sub_eq_add_neg] at h
  rw [← h, e, ho]
  apply BitVec.eq_of_getLsbD_eq
  intro i hi
  simp only [BitVec.getLsbD_or, BitVec.getLsbD_shiftLeft, BitVec.getLsbD_allOnes,
    BitVec.getLsbD_ofNat, Nat.testBit_mod_two_pow, hi, decide_true, Bool.true_and]
  by_cases hik : i < k
  · simp [hik, BitVec.getLsbD]
  · have : i - k < N := by omega
    simp [hik, this]

theorem setWidth_ofInt {N W : ℕ} (h : N ≤ W) (x : ℤ) :
    (BitVec.ofInt W x).setWidth N = BitVec.ofInt N x := by
  have hd : ((2 ^ N : ℕ) : ℤ) ∣ ((2 ^ W : ℕ) : ℤ) := by exact_mod_cast Nat.pow_dvd_pow 2 h
  apply BitVec.eq_of_toInt_eq
  rw [BitVec.toInt_setWidth, BitVec.toInt_ofInt, BitVec.toNat_ofInt,
    Int.toNat_of_nonneg (Int.emod_nonneg _ (by exact_mod_cast (Nat.two_pow_pos W).ne'))]
  rw [← Int.emod_bmod (x % _), Int.emod_emod_of_dvd _ hd, Int.emod_bmod]

end DartSdk.Bits
