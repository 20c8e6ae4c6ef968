import Mathlib.Data.Int.Bitwise
import DartSdk.Vm.RangeAnalysis.Arithmetic

/-!
# Ranges of integer operations (`Range::Mul`, `Range::And`, `Range::BitwiseOp`) and overflow

* `rangeMul_sound_iff`: the range of a product is sound **if and only if the smallest `int64_t` does
  not mislead `Range::Mul`**: its absolute value wraps.
* `inferRangeHelper_spec`: the overflow flag of an addition or a subtraction is **cleared only where
  the result fits**, if the symbols of the ranges hold Smis.
* `bitwise_sound`: the ranges of `&`, `|` and `^` are sound.
-/

namespace DartSdk.Vm.RangeAnalysis

open Option

section Constants

structure Int64Range where
  min : Int64
  max : Int64

instance : Coe Int64Range Range := ⟨fun r => ⟨.constant r.min.toInt, .constant r.max.toInt⟩⟩

theorem int64_bounds (x : Int64) : kMinInt64 ≤ x.toInt ∧ x.toInt ≤ kMaxInt64 :=
  ⟨x.le_toInt, Int.le_sub_one_of_lt x.toInt_lt⟩

theorem clamp_int64 (x : Int64) :
    (RangeBoundary.constant x.toInt).clamp .int64 = .constant x.toInt := by
  obtain ⟨hm, hmx⟩ := int64_bounds x
  rw [RangeBoundary.clamp_constant]
  exact congrArg _ ((congrArg _ (min_eq_left hmx)).trans (max_eq_right hm))

variable (g : Graph) (fuel : ℕ) (L R : Int64Range)

@[simp]
theorem constantMin_int64 : g.constantMin fuel L = some L.min.toInt := by
  rw [Graph.constantMin, lowerBound_constant, map_some, clamp_int64]
  rfl

@[simp]
theorem constantMax_int64 : g.constantMax fuel L = some L.max.toInt := by
  rw [Graph.constantMax, upperBound_constant, map_some, clamp_int64]
  rfl

@[simp]
theorem onlyGreaterThanOrEqualTo_int64 (m : ℤ) :
    g.onlyGreaterThanOrEqualTo fuel L m = some (decide (m ≤ L.min.toInt)) := by
  rw [Graph.onlyGreaterThanOrEqualTo, lowerBound_constant]
  rfl

@[simp]
theorem onlyLessThanOrEqualTo_int64 (m : ℤ) :
    g.onlyLessThanOrEqualTo fuel L m = some (decide (L.max.toInt ≤ m)) := by
  rw [Graph.onlyLessThanOrEqualTo, upperBound_constant]
  rfl

/-- `Range::ConstantAbsMax` of constants. -/
def Int64Range.absMax (r : Int64Range) : ℤ := Max.max (abs64 r.min.toInt) (abs64 r.max.toInt)

/-- `Range::ConstantAbsMin`. -/
def Int64Range.absMin (r : Int64Range) : ℤ := Min.min (abs64 r.min.toInt) (abs64 r.max.toInt)

@[simp]
theorem constantAbsMax_int64 : g.constantAbsMax fuel L = some L.absMax := by
  simp [Graph.constantAbsMax, Int64Range.absMax]

@[simp]
theorem constantAbsMin_int64 : g.constantAbsMin fuel L = some L.absMin := by
  simp [Graph.constantAbsMin, Int64Range.absMin]

/-- `OnlyPositiveOrZero` or `OnlyNegativeOrZero`, of constants. -/
def SameSign : Prop :=
  (0 ≤ L.min.toInt ∧ 0 ≤ R.min.toInt) ∨ (L.max.toInt ≤ 0 ∧ R.max.toInt ≤ 0)

instance : Decidable (SameSign L R) := inferInstanceAs (Decidable (_ ∨ _))

@[simp]
theorem sameSign_int64 : g.sameSign fuel L R = some (decide (SameSign L R)) := by
  rw [Graph.sameSign]
  simp only [onlyGreaterThanOrEqualTo_int64, onlyLessThanOrEqualTo_int64, bind_eq_bind, bind_some,
    pure_def, ← Bool.decide_and, ← Bool.decide_or]
  rfl

/-- Both ranges have values other than 0, one has the smallest `int64_t`, and the test of
`Range::Mul` passes, on absolute values that leave that one out.  The product of just 1 and just the
smallest `int64_t` wraps to itself. -/
structure MisledByMin : Prop where
  left : L.min.toInt ≤ L.max.toInt
  right : R.min.toInt ≤ R.max.toInt
  min : L.min.toInt = kMinInt64 ∨ R.min.toInt = kMinInt64
  left_ne : L.min.toInt ≠ 0 ∨ L.max.toInt ≠ 0
  right_ne : R.min.toInt ≠ 0 ∨ R.max.toInt ≠ 0
  fits : ProductFits L.absMax R.absMax
  ne_one : ¬(L.min.toInt = 1 ∧ L.max.toInt = 1 ∧ R.max.toInt = kMinInt64)

variable {L R}

theorem rangeMul_of_not_fits (h : ¬ProductFits L.absMax R.absMax) : g.rangeMul fuel L R =
    some (if SameSign L R then ⟨.constant 0, .positiveInfinity⟩
      else ⟨.negativeInfinity, .positiveInfinity⟩) := by
  simp [Graph.rangeMul, h, apply_ite some]

theorem rangeMul_of_fits (h : ProductFits L.absMax R.absMax) : g.rangeMul fuel L R =
    some ⟨.constant (toInt64 (if SameSign L R then L.absMin * R.absMin
      else -toInt64 (L.absMax * R.absMax))), .constant (toInt64 (L.absMax * R.absMax))⟩ := by
  by_cases hs : SameSign L R <;> simp [Graph.rangeMul, h, hs]

theorem toInt64_bounds (x : ℤ) : kMinInt64 ≤ toInt64 x ∧ toInt64 x ≤ kMaxInt64 :=
  ⟨Int.le_bmod (by decide), Int.le_sub_one_of_lt (Int.bmod_lt (by decide))⟩

theorem absMax_of_min (hm : L.min.toInt = kMinInt64) (hmx : L.max.toInt ≠ kMinInt64) :
    L.absMax = |L.max.toInt| := by
  have hab := abs64_eq (lt_of_le_of_ne (int64_bounds L.max).1 hmx.symm)
  rw [Int64Range.absMax, hm, hab]
  exact max_eq_right ((by decide : abs64 kMinInt64 ≤ 0).trans (abs_nonneg _))

theorem absMax_of_one (hmn : 0 ≤ L.min.toInt) (hle : L.min.toInt ≤ L.max.toInt)
    (hm : L.max.toInt = 1) : L.absMax = 1 := by
  rw [Int64Range.absMax, hm, abs64, if_neg (Int.not_lt.mpr hmn)]
  exact max_eq_right (hle.trans_eq hm)

variable {v : DefId → ℤ}

theorem mul_kMinInt64 {b : ℤ} (h : kMinInt64 ≤ kMinInt64 * b ∧ kMinInt64 * b ≤ kMaxInt64) :
    b = 0 ∨ b = 1 := by
  rw [kMinInt64, kMaxInt64] at h
  omega

/-- **Where the smallest `int64_t` misleads `Range::Mul`, a product is outside of the range.** -/
theorem MisledByMin.not_sound (h : MisledByMin L R) {s : Range}
    (hs : g.rangeMul fuel L R = some s) :
    ¬∀ a b, Within v a L → Within v b R → Within v (a * b) s := by
  intro hsn
  rw [rangeMul_of_fits g fuel h.fits] at hs
  cases hs
  obtain ⟨hle, hre, hm, hl0, hr0, hf, ho⟩ := h
  have hlm : Within v L.min.toInt L := ⟨le_rfl, hle⟩
  have hlx : Within v L.max.toInt L := ⟨hle, le_rfl⟩
  have hrm : Within v R.min.toInt R := ⟨le_rfl, hre⟩
  have hrx : Within v R.max.toInt R := ⟨hre, le_rfl⟩
  have hint {a b : ℤ} (ha : Within v a L) (hb : Within v b R) :
      kMinInt64 ≤ a * b ∧ a * b ≤ kMaxInt64 :=
    ⟨(toInt64_bounds _).1.trans (hsn a b ha hb).1,
      (hsn a b ha hb).2.trans (toInt64_bounds _).2⟩
  -- where the other factor is 1, the range is that of an absolute value
  have hfc {a b n : ℤ} (ha : Within v a L) (hb : Within v b R) (hab : a * b = kMinInt64)
      (hn : L.absMax * R.absMax = |n|) (hn' : |n| ≤ -kSmiMin) (hsm : ¬SameSign L R) : False := by
    have hn0 := abs_nonneg n
    have hlt : kMinInt64 < kSmiMin ∧ kSmiMin < 0 ∧ -kSmiMin ≤ kMaxInt64 := by decide
    have hw : toInt64 _ ≤ a * b := (hsn a b ha hb).1
    rw [hab, if_neg hsm, hn, toInt64_eq (x := |n|) (by omega) (by omega),
      toInt64_eq (by omega) (by omega)] at hw
    omega
  have hng : kMinInt64 < 0 := by decide
  rcases hm with hm | hm
  · have hbt {b : ℤ} (hb : Within v b R) : b = 0 ∨ b = 1 := mul_kMinInt64 (hm ▸ hint hlm hb)
    have hr := hbt hrm
    have hr1 : R.max.toInt = 1 := by have := hbt hrx; omega
    have has : R.absMax = 1 := absMax_of_one (by omega) hre hr1
    have hL : L.max.toInt ≠ kMinInt64 := by
      intro hmx
      rw [has, Int64Range.absMax, hm, hmx] at hf
      exact absurd hf (by decide)
    have hp := hf.1
    rw [absMax_of_min hm hL] at hp
    refine hfc hlm hrx (by rw [hm, hr1, mul_one]) ?_ hp (by rw [SameSign]; omega)
    rw [absMax_of_min hm hL, has, mul_one]
  · have hbt {a : ℤ} (ha : Within v a L) : a = 0 ∨ a = 1 :=
      mul_kMinInt64 (by rw [mul_comm]; exact hm ▸ hint ha hrm)
    have hl := hbt hlm
    have hl1 : L.max.toInt = 1 := by have := hbt hlx; omega
    have has : L.absMax = 1 := absMax_of_one (by omega) hle hl1
    by_cases hR : R.max.toInt = kMinInt64
    · have hl0 : L.min.toInt = 0 := by omega
      have hw : L.min.toInt * R.min.toInt ≤ _ := (hsn _ _ hlm hrm).2
      rw [has, Int64Range.absMax, hm, hR, hl0, zero_mul] at hw
      exact absurd hw (by decide)
    have hq := hf.2.1
    rw [absMax_of_min hm hR] at hq
    refine hfc hlx hrm (by rw [hm, hl1, one_mul]) ?_ hq (by rw [SameSign]; omega)
    rw [absMax_of_min hm hR, has, one_mul]

theorem within_rangeMul (hl : HasAbs g fuel L) (hr : HasAbs g fuel R) {s : Range} {a b : ℤ}
    (ha : Within v a L) (hb : Within v b R) (hs : g.rangeMul fuel L R = some s) :
    Within v (a * b) s := by
  obtain ⟨_, _, _, _, hlm, hlx, hrm, hrx, hbn⟩ := rangeMul_bounds (v := v) hl hr hs
  rw [constantMin_int64] at hlm hrm
  rw [constantMax_int64] at hlx hrx
  cases hlm
  cases hlx
  cases hrm
  cases hrx
  obtain ⟨hle, hge⟩ := mul_absMax_of_within ha.1 ha.2 hb.1 hb.2
  obtain ⟨hm, hmx⟩ := hbn (a * b) (a * b) hle hge
    (mul_absMin_of_sameSign ha.1 ha.2 hb.1 hb.2)
  exact ⟨hm.bounds, hmx.bounds⟩

/-- **The range of a product is sound** if and only if the smallest `int64_t` does not mislead
`Range::Mul`. -/
theorem rangeMul_sound_iff :
    (∃ s, g.rangeMul fuel L R = some s ∧ ∀ a b, Within v a L → Within v b R → Within v (a * b) s) ↔
      ¬MisledByMin L R := by
  constructor
  · rintro ⟨s, hs, hsound⟩ h
    exact h.not_sound g fuel hs hsound
  intro h
  by_cases hfits : ProductFits L.absMax R.absMax
  swap
  · refine ⟨_, rangeMul_of_not_fits g fuel hfits, fun a b ha hb => ?_⟩
    split_ifs with hs
    · exact ⟨(mul_absMin_of_sameSign ha.1 ha.2 hb.1 hb.2 hs).2, trivial⟩
    · exact ⟨trivial, trivial⟩
  refine ⟨_, rangeMul_of_fits g fuel hfits, fun a b ha hb => ?_⟩
  have hl : L.min.toInt ≤ L.max.toInt := Int.le_trans ha.1 ha.2
  have hr : R.min.toInt ≤ R.max.toInt := Int.le_trans hb.1 hb.2
  by_cases hm : L.min.toInt = kMinInt64 ∨ R.min.toInt = kMinInt64
  swap
  · rw [not_or] at hm
    have hab {L : Int64Range} (hne : L.min.toInt ≠ kMinInt64) (hle : L.min.toInt ≤ L.max.toInt) :
        HasAbs g fuel L := by
      have := (int64_bounds L.min).1
      rw [HasAbs, constantMin_int64, constantMax_int64, Ne, some.injEq, Ne, some.injEq]
      omega
    exact within_rangeMul g fuel (hab hm.1 hl) (hab hm.2 hr) ha hb
      (rangeMul_of_fits g fuel hfits)
  have hz {r : Int64Range} (hm : r.min.toInt = 0) (hmx : r.max.toInt = 0) :
      r.absMax = 0 ∧ r.absMin = 0 := by
    rw [Int64Range.absMax, Int64Range.absMin, hm, hmx]
    decide
  have h0 : toInt64 0 = 0 := rfl
  obtain ⟨ha₁, ha₂⟩ : L.min.toInt ≤ a ∧ a ≤ L.max.toInt := ha
  obtain ⟨hb₁, hb₂⟩ : R.min.toInt ≤ b ∧ b ≤ R.max.toInt := hb
  by_cases hl0 : L.min.toInt = 0 ∧ L.max.toInt = 0
  · obtain rfl : a = 0 := by omega
    simp only [hz hl0.1 hl0.2, zero_mul, h0, neg_zero, ite_self]
    exact ⟨le_rfl, le_rfl⟩
  by_cases hr0 : R.min.toInt = 0 ∧ R.max.toInt = 0
  · obtain rfl : b = 0 := by omega
    simp only [hz hr0.1 hr0.2, mul_zero, h0, neg_zero, ite_self]
    exact ⟨le_rfl, le_rfl⟩
  by_cases hone : L.min.toInt = 1 ∧ L.max.toInt = 1 ∧ R.max.toInt = kMinInt64
  · obtain ⟨hl1, hl1', hr1⟩ := hone
    have hm' := (int64_bounds R.min).1
    obtain rfl : a = 1 := by omega
    obtain rfl : b = kMinInt64 := by omega
    have hR : R.min.toInt = kMinInt64 := by omega
    have hsm : ¬SameSign L R := by
      rw [SameSign, hl1', hR, kMinInt64]
      omega
    rw [if_neg hsm, absMax_of_one (by omega) hl hl1', Int64Range.absMax, hR, hr1]
    exact ⟨(by decide : _ ≤ 1 * kMinInt64), (by decide : 1 * kMinInt64 ≤ _)⟩
  exact absurd ⟨hl, hr, hm, by omega, by omega, hfits, hone⟩ h

def noRanges : Graph := ⟨fun _ => .other, fun _ => none, fun _ _ => false⟩

/-- The absolute value of the smallest `int64_t` wraps, so 5 is taken for the greatest one. -/
theorem rangeMul_kMinInt64 :
    noRanges.rangeMul 0 (⟨.minValue, 5⟩ : Int64Range) (⟨1, 1⟩ : Int64Range) =
        some ⟨.constant (-5), .constant 5⟩ ∧
      Within (fun _ => 0) kMinInt64 (⟨.minValue, 5⟩ : Int64Range) ∧
      Within (fun _ => 0) 1 (⟨1, 1⟩ : Int64Range) ∧
      ¬Within (fun _ => 0) (kMinInt64 * 1) ⟨.constant (-5), .constant 5⟩ :=
  ⟨by decide, ⟨by decide, by decide⟩, ⟨by decide, by decide⟩, fun h => absurd h.1 (by decide)⟩

end Constants

section Overflow

/-- The representations of an integer operation. -/
inductive Representation
  | tagged
  | unboxedInt32
  | unboxedMint
  deriving DecidableEq

def representationToRangeSize : Representation → RangeSize
  | .tagged => .smi
  | .unboxedInt32 => .int32
  | .unboxedMint => .int64

/-- `RangeBoundary::Overflowed`. -/
def RangeBoundary.overflowed (size : RangeSize) (b : RangeBoundary) : Bool :=
  decide (b ≠ b.clamp size)

/-- The flags of a `BinaryIntegerOpInstr`. -/
structure BinaryIntegerOpInstr where
  op : ArithOp
  representation : Representation
  isTruncating : Bool
  canOverflow : Bool

namespace Graph

variable (g : Graph) (fuel : ℕ)

/-- `Range::Fits`. -/
def fits (size : RangeSize) (r : Range) : Option Bool := do
  let low ← g.lowerBound fuel r.min
  let up ← g.upperBound fuel r.max
  return !low.overflowed size && !up.overflowed size

/-- `InferRangeHelper`: the range, which stays as it is if that of an operand is unknown, and
`can_overflow`, which is computed before clamping. -/
def inferRangeHelper (i : BinaryIntegerOpInstr) (leftLength : Option DefId)
    (range left right : Option Range) : Option (Option Range × Bool) :=
  let size := representationToRangeSize i.representation
  match left, right with
  | some left, some right => do
    let result ← g.rangeBinaryOp fuel i.op left right leftLength
    (if i.isTruncating then some i.canOverflow else (g.fits fuel size result).map (!·)).map
      (some (result.clamp size), ·)
  | _, _ => some (range, i.canOverflow)

end Graph

variable {g : Graph} {fuel : ℕ} {v : DefId → ℤ} {size : RangeSize} {b : RangeBoundary} {x : ℤ}

theorem Side.IsBound.limit_le {side : Side} (h : side.IsBound x b)
    (hf : b = b.clamp size) : side.Le (side.limit size) x := by
  rcases h with rfl | ⟨c, rfl, hc⟩
  · cases side <;> cases hf
  · have := size.minValue_le_maxValue
    rw [RangeBoundary.clamp_constant, RangeBoundary.constant.injEq] at hf
    cases side <;> dsimp only [Side.Le, Side.limit] at * <;> omega

theorem fits_spec (hg : Respects g v) {r : Range} (hm : Side.min.IsEnd g v x r.min)
    (hmx : Side.max.IsEnd g v x r.max) (h : g.fits fuel size r = some true) :
    size.minValue ≤ x ∧ x ≤ size.maxValue := by
  simp only [Graph.fits, RangeBoundary.overflowed, bind_eq_bind, pure_def, bind_eq_some_iff] at h
  obtain ⟨low, hl, up, hup, h⟩ := h
  simp only [decide_not, Bool.not_not, some.injEq, Bool.and_eq_true, decide_eq_true_eq] at h
  exact ⟨(hm.bound hg hl).limit_le h.1, (hmx.bound hg hup).limit_le h.2⟩

variable {i : BinaryIntegerOpInstr} {leftLength : Option DefId} {range s : Option Range}
  {left right : Range} {a c : ℤ} {canOverflow : Bool}

/-- **The exact result is within the range before clamping, and where `can_overflow` is set to
false it fits the representation**, if the symbols hold Smis. -/
theorem inferRangeHelper_spec (hop : i.op = .add ∨ i.op = .sub) (hg : Respects g v)
    (hl : Spans g v left a a) (hr : Spans g v right c c) (hlen : IsLength g v a a leftLength)
    (h : g.inferRangeHelper fuel i leftLength range left right = some (s, canOverflow)) :
    ∃ r, g.rangeBinaryOp fuel i.op left right leftLength = some r ∧
      s = r.clamp (representationToRangeSize i.representation) ∧ Within v (i.op.eval a c) r ∧
      (i.isTruncating = false → canOverflow = false →
        (representationToRangeSize i.representation).minValue ≤ i.op.eval a c ∧
          i.op.eval a c ≤ (representationToRangeSize i.representation).maxValue) := by
  simp only [Graph.inferRangeHelper, bind_eq_bind, bind_eq_some_iff, map_eq_some_iff] at h
  obtain ⟨r, hrs, _, hf, h⟩ := h
  cases h
  obtain ⟨hm, hmx⟩ : Side.min.IsEnd g v (i.op.eval a c) r.min ∧
      Side.max.IsEnd g v (i.op.eval a c) r.max := by
    rcases hop with hop | hop
    · rw [hop] at hrs ⊢
      exact rangeAdd_spec hg hl hr hlen hrs
    · rw [hop] at hrs ⊢
      exact rangeSub_spec hg hl hr hlen hrs
  refine ⟨r, hrs, rfl, ⟨hm.bounds, hmx.bounds⟩, ?_⟩
  rintro ht rfl
  rw [ht, if_neg Bool.false_ne_true, map_eq_some_iff] at hf
  obtain ⟨fits, hft, hf⟩ := hf
  cases fits with
  | false => cases hf
  | true => exact fits_spec hg hm hmx hft

theorem respects_noRanges (v : DefId → ℤ) : Respects noRanges v :=
  ⟨nofun, nofun, nofun, nofun, nofun, nofun, nofun⟩

/-- An index in `[0, 100]` and the next one, as `int32_t`. -/
theorem inferRangeHelper_spec_next :
    noRanges.inferRangeHelper 0 ⟨.add, .unboxedInt32, false, true⟩ none none
        (some ⟨.constant 0, .constant 100⟩) (some ⟨.constant 1, .constant 1⟩) =
      some (some ⟨.constant 1, .constant 101⟩, false) ∧
    RangeSize.int32.minValue ≤ 7 + 1 ∧ 7 + 1 ≤ RangeSize.int32.maxValue := by
  refine ⟨rfl, ?_⟩
  obtain ⟨_, -, -, -, hf⟩ := inferRangeHelper_spec (i := ⟨.add, .unboxedInt32, false, true⟩)
    (s := some ⟨.constant 1, .constant 101⟩) (a := 7) (c := 1) (.inl rfl)
    (respects_noRanges fun _ => 0) ⟨by decide, by decide, by trivial, by trivial⟩
    ⟨by decide, by decide, by trivial, by trivial⟩ (by rintro _ ⟨⟩)
    (show noRanges.inferRangeHelper 0 _ none none (some ⟨.constant 0, .constant 100⟩)
      (some ⟨.constant 1, .constant 1⟩) = some (_, false) from rfl)
  exact hf rfl rfl

/-- A symbol without a range is taken to be a Smi.  If it is the greatest `int64_t`, the sum with 1
does not fit. -/
theorem inferRangeHelper_symbol :
    noRanges.inferRangeHelper 1 ⟨.add, .unboxedMint, false, true⟩ none none
        (some ⟨.symbol 0 0, .symbol 0 0⟩) (some ⟨.constant 1, .constant 1⟩) =
      some (some ⟨.symbol 0 1, .symbol 0 1⟩, false) ∧
    Respects noRanges (fun _ => kMaxInt64) ∧
    Within (fun _ => kMaxInt64) kMaxInt64 ⟨.symbol 0 0, .symbol 0 0⟩ ∧
    RangeSize.int64.maxValue < kMaxInt64 + 1 :=
  ⟨by decide, respects_noRanges _, ⟨by decide, by decide⟩, by decide⟩

end Overflow

section Bitwise

/-- A step of `HighestBit`: the lower `s` bits are dropped if there are bits above them. -/
def dropBits (s : ℕ) (p : ℕ × ℕ) : ℕ × ℕ :=
  if p.1 >>> s ≠ 0 then (p.1 >>> s, p.2 + s) else p

/-- `Utils::HighestBit`. -/
def highestBit (v : ℤ) : ℕ :=
  let p := dropBits 2 (dropBits 4 (dropBits 8 (dropBits 16 (dropBits 32 (v.natAbs, 0)))))
  if 1 < p.1 then p.2 + 1 else p.2

/-- `Utils::BitLength`.  The bits are flipped if the value is negative (-1 becomes 0). -/
def bitLength (value : ℤ) : ℕ :=
  let value := Int.xor value (value >>> 63)
  if value = 0 then 0 else highestBit value + 1

namespace Graph

variable (g : Graph) (fuel : ℕ)

def bitSize (r : Range) : Option ℕ := do
  let min ← g.constantMin fuel r
  let max ← g.constantMax fuel r
  return Max.max (bitLength min) (bitLength max)

/-- `Range::BitwiseOp`; `1 << bitsize` is undefined from 64 on. -/
def rangeBitwiseOp (left right : Range) : Option Range := do
  let bitsize := Max.max (← g.bitSize fuel left) (← g.bitSize fuel right)
  let leftPositive ← g.onlyGreaterThanOrEqualTo fuel left 0
  let rightPositive ← g.onlyGreaterThanOrEqualTo fuel right 0
  if bitsize < 64 then
    return ⟨.constant (if leftPositive && rightPositive then 0 else -2 ^ bitsize),
      .constant (2 ^ bitsize - 1)⟩
  else none

/-- `Range::And`. -/
def rangeAnd (left right : Range) : Option Range := do
  if 0 ≤ (← g.constantMin fuel right) then
    return ⟨.constant 0, .constant (← g.constantMax fuel right)⟩
  else if 0 ≤ (← g.constantMin fuel left) then
    return ⟨.constant 0, .constant (← g.constantMax fuel left)⟩
  else g.rangeBitwiseOp fuel left right

end Graph

/-- What `HighestBit` keeps: `x` are the bits of `v` from `r` on, and there are at most `n`. -/
structure HighBits (v n : ℕ) (p : ℕ × ℕ) : Prop where
  eq : p.1 = v / 2 ^ p.2
  lt : p.1 < 2 ^ n
  ne_zero : p.1 ≠ 0

theorem HighBits.dropBits {v : ℕ} {p : ℕ × ℕ} (s : ℕ) (h : HighBits v (s + s) p) :
    HighBits v s (dropBits s p) := by
  rw [RangeAnalysis.dropBits, Nat.shiftRight_eq_div_pow]
  split_ifs with h0
  · refine ⟨?_, ?_, h0⟩
    · rw [h.eq, Nat.div_div_eq_div_mul, pow_add]
    · rw [Nat.div_lt_iff_lt_mul (Nat.two_pow_pos s), ← pow_add]
      exact h.lt
  · refine ⟨h.eq, ?_, h.ne_zero⟩
    exact (Nat.div_eq_zero_iff_lt (Nat.two_pow_pos s)).mp (not_not.mp h0)

theorem highestBit_spec {v : ℤ} (h0 : v ≠ 0) (hv : v.natAbs < 2 ^ 64) :
    2 ^ highestBit v ≤ v.natAbs ∧ v.natAbs < 2 ^ (highestBit v + 1) := by
  have h : HighBits v.natAbs 64 (v.natAbs, 0) :=
    ⟨(Nat.div_one _).symm, hv, Int.natAbs_ne_zero.mpr h0⟩
  obtain ⟨heq, hlt, hne⟩ :=
    ((((h.dropBits 32).dropBits 16).dropBits 8).dropBits 4).dropBits 2
  rw [highestBit]
  generalize dropBits 2 _ = p at heq hlt hne ⊢
  have hps := Nat.two_pow_pos p.2
  have hd := Nat.div_add_mod v.natAbs (2 ^ p.2)
  have hm := Nat.mod_lt v.natAbs hps
  rw [← heq] at hd
  split_ifs with h1
  · rw [pow_succ, pow_succ]
    obtain hp | hp : p.1 = 2 ∨ p.1 = 3 := by omega
    all_goals
      rw [hp] at hd
      omega
  · obtain hp : p.1 = 1 := by omega
    rw [hp] at hd
    rw [pow_succ]
    omega

theorem xor_shiftRight {value : ℤ} (hmn : kMinInt64 ≤ value) (hm : value ≤ kMaxInt64) :
    ∃ n : ℕ, Int.xor value (value >>> 63) = n ∧ n < 2 ^ 63 ∧ (value = n ∨ value = -n - 1) := by
  have hx {n : ℕ} (hn : n < 2 ^ 63) : ((n ^^^ n >>> 63 : ℕ) : ℤ) = n := by
    rw [Nat.shiftRight_eq_div_pow, Nat.div_eq_of_lt hn, Nat.xor_zero]
  rw [kMinInt64] at hmn
  rw [kMaxInt64] at hm
  cases value with
  | ofNat n =>
    have hn : n < 2 ^ 63 := by simp only [Int.ofNat_eq_natCast] at hm; omega
    exact ⟨n, hx hn, hn, .inl rfl⟩
  | negSucc n =>
    have hn : n < 2 ^ 63 := by omega
    exact ⟨n, hx hn, hn, .inr (by omega)⟩

theorem bitLength_spec {value : ℤ} (hm : kMinInt64 ≤ value) (hmx : value ≤ kMaxInt64) :
    bitLength value < 64 ∧ -2 ^ bitLength value ≤ value ∧ value < 2 ^ bitLength value := by
  obtain ⟨n, hx, hn, hv⟩ := xor_shiftRight hm hmx
  have hl : bitLength value < 64 ∧ n < 2 ^ bitLength value := by
    rw [bitLength, hx]
    split_ifs with h0
    · exact ⟨by decide, by omega⟩
    · obtain ⟨hle, hlt⟩ := highestBit_spec h0 (hn.trans (by decide))
      have := (Nat.pow_lt_pow_iff_right one_lt_two).mp (hle.trans_lt hn)
      exact ⟨by omega, hlt⟩
  have hc : (n : ℤ) < 2 ^ bitLength value := by exact_mod_cast hl.2
  exact ⟨hl.1, by omega, by omega⟩

theorem shiftRight_eq_ediv {x : ℤ} {n : ℕ} : x >>> n = x / 2 ^ n := by
  rw [Int.shiftRight_eq_div_pow, Nat.cast_pow]
  rfl

/-- `x` is a word of `k` bits and its sign. -/
def FitsBits (k : ℕ) (x : Int64) : Prop := -2 ^ k ≤ x.toInt ∧ x.toInt < 2 ^ k

theorem fitsBits_iff {k : ℕ} {x : Int64} : FitsBits k x ↔
    x.toBitVec.sshiftRight k = 0 ∨ x.toBitVec.sshiftRight k = -1 := by
  have hp : (0 : ℤ) < 2 ^ k := pow_pos two_pos k
  rw [← BitVec.toInt_inj, ← BitVec.toInt_inj, BitVec.toInt_sshiftRight, shiftRight_eq_ediv,
    Int64.toInt_toBitVec]
  show _ ↔ x.toInt / 2 ^ k = 0 ∨ x.toInt / 2 ^ k = -1
  rw [FitsBits, Int.ediv_eq_iff_of_pos hp, Int.ediv_eq_iff_of_pos hp]
  omega

theorem FitsBits.mono {k k' : ℕ} {x : Int64} (h : FitsBits k x) (hk : k ≤ k') : FitsBits k' x := by
  have := pow_le_pow_right₀ (one_le_two (α := ℤ)) hk
  exact ⟨(Int.neg_le_neg this).trans h.1, h.2.trans_le this⟩

theorem fitsBits_bitLength (x : Int64) : FitsBits (bitLength x.toInt) x :=
  (bitLength_spec (int64_bounds x).1 (int64_bounds x).2).2

theorem toInt_nonneg_iff {x : Int64} : 0 ≤ x.toInt ↔ x.toBitVec.msb = false := by
  rw [BitVec.msb_eq_toInt]
  simp

theorem and_bounds {x y : Int64} (hy : 0 ≤ y.toInt) :
    0 ≤ (x &&& y).toInt ∧ (x &&& y).toInt ≤ y.toInt := by
  have hy' := toInt_nonneg_iff.mp hy
  have hxy : (x &&& y).toBitVec.msb = false := by simp [hy']
  refine ⟨toInt_nonneg_iff.mpr hxy, ?_⟩
  rw [← Int64.toInt_toBitVec, ← Int64.toInt_toBitVec y, BitVec.toInt_eq_toNat_of_msb hxy,
    BitVec.toInt_eq_toNat_of_msb hy']
  exact Int.ofNat_le.mpr Nat.and_le_right

def Int64Range.bits (r : Int64Range) : ℕ := Max.max (bitLength r.min.toInt) (bitLength r.max.toInt)

variable {g : Graph} {fuel : ℕ} {v : DefId → ℤ} {L R : Int64Range} {a b z : Int64} {s : Range}

theorem rangeBitwiseOp_eq : g.rangeBitwiseOp fuel L R =
    some ⟨.constant (if 0 ≤ L.min.toInt ∧ 0 ≤ R.min.toInt then 0 else -2 ^ max L.bits R.bits),
      .constant (2 ^ max L.bits R.bits - 1)⟩ := by
  have hlt (x : Int64) : bitLength x.toInt < 64 :=
    (bitLength_spec (int64_bounds x).1 (int64_bounds x).2).1
  simp [Graph.rangeBitwiseOp, Graph.bitSize, Int64Range.bits, hlt]

theorem within_bitwiseOp (hz : FitsBits (max L.bits R.bits) z)
    (hz0 : 0 ≤ L.min.toInt → 0 ≤ R.min.toInt → 0 ≤ z.toInt)
    (hs : g.rangeBitwiseOp fuel L R = some s) : Within v z.toInt s := by
  rw [rangeBitwiseOp_eq] at hs
  cases hs
  refine ⟨?_, Int.le_sub_one_of_lt hz.2⟩
  split_ifs with hp
  · exact hz0 hp.1 hp.2
  · exact hz.1

/-- A value within the range has at most as many bits as the boundaries. -/
theorem fitsBits_of_within (h : Within v a.toInt L) : FitsBits L.bits a :=
  ⟨Int.le_trans ((fitsBits_bitLength L.min).mono (le_max_left _ _)).1 h.1,
    h.2.trans_lt ((fitsBits_bitLength L.max).mono (le_max_right _ _)).2⟩

section Values

variable (ha : Within v a.toInt L) (hb : Within v b.toInt R)

include ha hb

/-- A bitwise operation on values within the ranges has no more bits than the boundaries. -/
theorem fitsBits_op {op : BitVec 64 → BitVec 64 → BitVec 64} (hop : ∀ (x y : BitVec 64) (k : ℕ),
      (op x y).sshiftRight k = op (x.sshiftRight k) (y.sshiftRight k))
    (hs : ∀ x ∈ [0, -1], ∀ y ∈ [0, -1], op x y ∈ [0, -1])
    (hz : z.toBitVec = op a.toBitVec b.toBitVec) : FitsBits (max L.bits R.bits) z := by
  have ha' := (fitsBits_of_within ha).mono (le_max_left _ R.bits)
  have hb' := (fitsBits_of_within hb).mono (le_max_right L.bits _)
  rw [fitsBits_iff] at ha' hb' ⊢
  rw [hz, hop]
  simpa using hs _ (by simpa using ha') _ (by simpa using hb')

theorem within_rangeAnd (hs : g.rangeAnd fuel L R = some s) : Within v (a &&& b).toInt s := by
  simp only [Graph.rangeAnd, constantMin_int64, constantMax_int64, bind_eq_bind, bind_some,
    pure_def] at hs
  split_ifs at hs with hr hl
  · cases hs
    obtain ⟨h0, hle⟩ := and_bounds (hr.trans hb.1)
    exact ⟨h0, hle.trans hb.2⟩
  · cases hs
    obtain ⟨h0, hle⟩ := and_bounds (hl.trans ha.1)
    rw [Int64.and_comm]
    exact ⟨h0, hle.trans ha.2⟩
  · exact within_bitwiseOp (fitsBits_op ha hb BitVec.sshiftRight_and_distrib (by simp) rfl)
      (fun h0 _ => absurd h0 hl) hs

theorem or_xor_nonneg (hl : 0 ≤ L.min.toInt) (hr : 0 ≤ R.min.toInt) :
    0 ≤ (a ||| b).toInt ∧ 0 ≤ (a ^^^ b).toInt := by
  have ha0 := toInt_nonneg_iff.mp (hl.trans ha.1)
  have hb0 := toInt_nonneg_iff.mp (hr.trans hb.1)
  rw [toInt_nonneg_iff, toInt_nonneg_iff]
  simp [ha0, hb0]

end Values

/-- **The ranges of bitwise operations are sound**, whatever the signs of the boundaries. -/
theorem bitwise_sound (g : Graph) (fuel : ℕ) (v : DefId → ℤ) (L R : Int64Range) :
    ∃ s t, g.rangeAnd fuel L R = some s ∧ g.rangeBitwiseOp fuel L R = some t ∧
      ∀ a b : Int64, Within v a.toInt L → Within v b.toInt R → Within v (a &&& b).toInt s ∧
        Within v (a ||| b).toInt t ∧ Within v (a ^^^ b).toInt t := by
  obtain ⟨t, ht⟩ : ∃ t, g.rangeBitwiseOp fuel L R = some t := ⟨_, rangeBitwiseOp_eq⟩
  obtain ⟨s, hs⟩ : ∃ s, g.rangeAnd fuel L R = some s := by
    simp only [Graph.rangeAnd, constantMin_int64, constantMax_int64, ht, bind_eq_bind, bind_some,
      pure_def]
    split_ifs <;> exact ⟨_, rfl⟩
  refine ⟨s, t, hs, ht, fun a b ha hb => ⟨within_rangeAnd ha hb hs, ?_, ?_⟩⟩
  · exact within_bitwiseOp (fitsBits_op ha hb BitVec.sshiftRight_or_distrib (by simp) rfl)
      (fun hl hr => (or_xor_nonneg ha hb hl hr).1) ht
  · exact within_bitwiseOp (fitsBits_op ha hb BitVec.sshiftRight_xor_distrib (by simp) rfl)
      (fun hl hr => (or_xor_nonneg ha hb hl hr).2) ht

end Bitwise

end DartSdk.Vm.RangeAnalysis
