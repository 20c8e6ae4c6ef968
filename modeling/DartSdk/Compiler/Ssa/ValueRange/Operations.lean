import DartSdk.Compiler.Ssa.ValueRange.BoundsCheck
import DartSdk.Compiler.Ssa.ValueRange.LoopUpdate

/-!
# Operations on values and ranges

The operators of values and ranges with the constant system of the JavaScript backend, which rounds an
integer to the double next to it.  Where nothing is rounded, the operators are those of the constant system
that gives up instead of rounding, and that one is exact.

* `arithmetic_sound`: sums, differences, negations, extremes, unions and intersections are right where
  nothing is rounded;
* `add_rounds`: beyond 2^53 a sum of constants is not the sum of its operands;
* `visitRelational_sound_iff`: comparisons are folded rightly where the ends that are told apart are
  different integers;
* `masks_sound_iff`: masks and moduli have the right ranges where no single known operand is negative.
-/

namespace DartSdk.Compiler.ValueRange

open ExtInt List Option Operators LoopUpdateRecognizer
open ValueRangeInfo (intZero intOne)

/-- The unary `operator -` -/
def Range.neg (info : ValueRangeInfo) (this : Range) : Range :=
  normalize (info.operators.neg this.upper) (info.operators.neg this.lower)

variable {info : ValueRangeInfo} {ρ : ℕ → ℤ} {a b : Value} {r r' : Range} {x y : ℤ}

section Exact

theorem beyond_norm {p : Bool} {c : ExtInt} {v : Value} (h : Gives ρ c v) (hc : Beyond p c x) :
    ∃ d, (norm p v).eval ρ = some d ∧ Beyond p d x :=
  (bounds_of_gives (m := infinity) h hc).of_ne (ne_marker_of_gives h)

variable (hfl : ExactFold info.fold) (hx : r.Contains ρ x) (hy : r'.Contains ρ y)

include hfl hx

theorem contains_neg : (r.neg info).Contains ρ (-x) := by
  refine contains_iff.mpr fun p => ?_
  obtain ⟨c, hc, hcx⟩ := contains_iff.mp hx (!p)
  have hb : bound p (r.neg info) = norm p (info.operators.neg (bound (!p) r)) := by cases p <;> rfl
  rw [hb]
  exact beyond_norm ((tie_sound hfl _).neg hc) (beyond_signed (n := true) hcx)

include hy

theorem contains_apply (n : Bool) :
    (cond n (r.sub info r') (r.add info r')).Contains ρ (x + cond n (-y) y) := by
  refine contains_iff.mpr fun p => ?_
  obtain ⟨c, hc, hcx⟩ := contains_iff.mp hx p
  obtain ⟨d, hd, hdy⟩ := contains_iff.mp hy (side n p)
  obtain ⟨hcm, hb⟩ := beyond_add hcx (beyond_signed hdy)
  rw [bound_apply]
  exact beyond_norm (apply_gives (tie_sound hfl _) hc hd hcm) hb

theorem contains_union {z : ℤ} (hz : z = x ∨ z = y) : (r.union info r').Contains ρ z := by
  refine contains_iff.mpr fun p => ?_
  obtain ⟨c, hc, hcx⟩ := contains_iff.mp hx p
  obtain ⟨d, hd, hdy⟩ := contains_iff.mp hy p
  rw [bound_union]
  rcases join_of_eval (tie_sound hfl _) hc hd with hu | ⟨-, e, he, hall⟩
  · exact beyond_norm (.inl hu) beyond_infinity
  · refine beyond_norm (.inr he) (hall z ?_)
    rcases hz with rfl | rfl
    · exact .inl hcx
    · exact .inr hdy

end Exact

/-- **The operators of values and ranges are right where nothing is rounded**: sums, differences and
negations are exact or `Unknown`, the extremes are the right one of the two or `Unknown`, and ranges contain
what comes of the integers that their operands contain. -/
theorem arithmetic_sound (info : ValueRangeInfo) (ρ : ℕ → ℤ) :
    (∀ (a b : Value) (x y : ExtInt), a.eval ρ = some x → b.eval ρ = some y →
      (Unrounded info (·.operators.add a b) → Compatible x y → Gives ρ (x + y) (info.operators.add a b)) ∧
      (Unrounded info (·.operators.sub a b) → Compatible x (-y) →
        Gives ρ (x + -y) (info.operators.sub a b)) ∧
      (Unrounded info (·.operators.neg a) → Gives ρ (-x) (info.operators.neg a)) ∧
      (Unrounded info (·.operators.min a b) → Smaller a b (info.operators.min a b) x y) ∧
      (Unrounded info (·.operators.max a b) → Larger a b (info.operators.max a b) x y)) ∧
    ∀ (r r' : Range) (x y : ℤ), r.Contains ρ x → r'.Contains ρ y →
      (Unrounded info (r.add · r') → (r.add info r').Contains ρ (x + y)) ∧
      (Unrounded info (r.sub · r') → (r.sub info r').Contains ρ (x - y)) ∧
      (Unrounded info (r.neg ·) → (r.neg info).Contains ρ (-x)) ∧
      (Unrounded info (r.union · r') →
        (r.union info r').Contains ρ x ∧ (r.union info r').Contains ρ y) ∧
      (Unrounded info (r.intersection · r') → x = y → (r.intersection info r').Contains ρ x) := by
  have hfl := exactFold_exact info
  have hs : info.exact.operators.Sound ρ := tie_sound hfl _
  dsimp only [Unrounded]
  constructor
  · intro a b x y hx hy
    have hc := extremes_cases hs hx hy
    refine ⟨fun h => ?_, fun h => ?_, fun h => ?_, fun h => ?_, fun h => ?_⟩ <;> rw [h]
    · exact hs.add hx hy
    · exact hs.sub hx hy
    · exact hs.neg hx
    · exact hc.1
    · exact hc.2
  · intro r r' x y hx hy
    refine ⟨fun h => ?_, fun h => ?_, fun h => ?_, fun h => ?_, fun h => ?_⟩ <;> rw [h]
    · exact contains_apply hfl hx hy false
    · rw [Int.sub_eq_add_neg]
      exact contains_apply hfl hx hy true
    · exact contains_neg hfl hx
    · exact ⟨contains_union hfl hx hy (.inl rfl), contains_union hfl hx hy (.inr rfl)⟩
    · rintro rfl
      exact Range.contains_intersection hfl hx hy

/-- `x + (5 - x)` is `5`. -/
theorem arithmetic_sound_cancels : ∃ info : ValueRangeInfo, info.fold = convertToJavaScriptConstant ∧
    info.operators.add (.instruction 0 true) (.subtract (.int 5) (.instruction 0 true)) = .int 5 ∧
    Gives (fun _ => 7) (.int 7 + .int (-2))
      (info.operators.add (.instruction 0 true) (.subtract (.int 5) (.instruction 0 true))) := by
  have hs := (arithmetic_sound ⟨convertToJavaScriptConstant, 4⟩ fun _ => 7).1 (.instruction 0 true)
    (.subtract (.int 5) (.instruction 0 true)) _ _ rfl rfl
  have hr : Unrounded ⟨convertToJavaScriptConstant, 4⟩
      (·.operators.add (.instruction 0 true) (.subtract (.int 5) (.instruction 0 true))) := by
    unfold Unrounded
    decide
  exact ⟨_, rfl, by decide, hs.1 hr trivial⟩

/-- `2^53 + 1` is rounded to `2^53`, for values and for ranges. -/
theorem add_rounds : ∃ (info : ValueRangeInfo) (r r' : Range),
    info.fold = convertToJavaScriptConstant ∧
      info.operators.add (.int (2 ^ 53)) (.int 1) = .int (2 ^ 53) ∧
      r.Contains (fun _ => 0) (2 ^ 53) ∧ r'.Contains (fun _ => 0) 1 ∧
      ¬ (r.add info r').Contains (fun _ => 0) (2 ^ 53 + 1) := by
  refine ⟨⟨convertToJavaScriptConstant, 4⟩, ⟨.int (2 ^ 53), .int (2 ^ 53)⟩, ⟨.int 1, .int 1⟩, rfl,
    by decide, ⟨_, _, rfl, rfl, by decide, by decide⟩, ⟨_, _, rfl, rfl, by decide, by decide⟩, ?_⟩
  rintro ⟨_, _, -, hhi, -, hle⟩
  obtain rfl := some.inj hhi
  exact absurd hle (by decide)

/-! ### Comparisons -/

namespace Range

variable (info : ValueRangeInfo) (this other : Range)

/-- `operator <=` -/
def lessEqual : Bool := (info.operators.min this.upper other.lower).equals this.upper

/-- `operator >=` -/
def greaterEqual : Bool := (info.operators.max this.lower other.upper).equals this.lower

/-- `operator >` -/
def greater : Bool := !this.lower.equals other.upper && this.greaterEqual info other

def isSingleValue : Bool := this.lower.equals this.upper

end Range

def Operation.apply (info : ValueRangeInfo) : Operation → Range → Range → Bool
  | .less => Range.less info
  | .lessEqual => Range.lessEqual info
  | .greater => Range.greater info
  | .greaterEqual => Range.greaterEqual info

namespace SsaValueRangeAnalyzer

def handleEqualityCheck (left right : Range) : Bool :=
  left.isSingleValue && right.isSingleValue && left.equals right

/-- The constant that `visitRelational` puts in the place of a comparison, if any. -/
def visitRelational (info : ValueRangeInfo) (ranges : ℕ → Option Range) (isInteger : ℕ → Bool) :
    Condition → Option Bool
  | .relational operation left right => do
    guard (isInteger left && isInteger right)
    let leftRange ← ranges left
    let rightRange ← ranges right
    if operation.apply info leftRange rightRange then some true
    else if (negateOperation operation).apply info leftRange rightRange then some false
    else none
  | .identity left right => do
    guard (isInteger left && isInteger right)
    if handleEqualityCheck (← ranges left) (← ranges right) then some true else none
  | .other => none

end SsaValueRangeAnalyzer

open SsaValueRangeAnalyzer

section Comparisons

section

variable (hx : r.Contains ρ x) (hy : r'.Contains ρ y)

include hx hy

/-- Ends that stand for the same are an integer that both ranges contain. -/
theorem exists_common (h : r.upper.eval ρ = r'.lower.eval ρ) : ∃ n, r.Contains ρ n ∧ r'.Contains ρ n := by
  obtain ⟨lo, hi, hlo, hhi, hle, hle'⟩ := hx
  obtain ⟨lo', hi', hlo', hhi', hl, hl'⟩ := hy
  obtain rfl := some.inj (hhi.symm.trans (h.trans hlo'))
  cases hi with
  | int n =>
    exact ⟨n, ⟨lo, _, hlo, hhi, le_trans hle hle', le_rfl⟩, _, hi', hlo', hhi', le_rfl, le_trans hl hl'⟩
  | bot => exact absurd hle' not_int_le_bot
  | top => exact absurd hl not_top_le_int

theorem handleEqualityCheck_sound (h : handleEqualityCheck r r') : x = y := by
  obtain ⟨lo, hi, hlo, hhi, hle, hle'⟩ := hx
  obtain ⟨lo', hi', hlo', hhi', hl, hl'⟩ := hy
  simp only [handleEqualityCheck, Range.isSingleValue, Range.equals, Bool.and_eq_true] at h
  obtain rfl := eval_of_equals h.1.1 hlo hhi
  obtain rfl := eval_of_equals h.1.2 hlo' hhi'
  obtain rfl := eval_of_equals h.2.1 hlo' hlo
  exact int_le_int.mp (le_trans hle' hl) |>.antisymm (int_le_int.mp (le_trans hl' hle))

/-- A comparison of ranges says how their integers compare, if the strict ones tell apart. -/
theorem apply_sound (hu : Unrounded info (·.operators.min r.upper r'.lower))
    (hl : Unrounded info (·.operators.max r.lower r'.upper))
    (hls : r.less info r' → r.upper.eval ρ ≠ r'.lower.eval ρ)
    (hg : r.greater info r' → r'.upper.eval ρ ≠ r.lower.eval ρ) {operation : Operation}
    (h : operation.apply info r r') : operation.holds x y := by
  have hs : info.exact.operators.Sound ρ := tie_sound (exactFold_exact info) _
  dsimp only [Unrounded] at hu hl
  have hle (h : r.lessEqual info r') : x ≤ y ∧ (x = y → r.upper.eval ρ = r'.lower.eval ρ) := by
    rw [Range.lessEqual, hu] at h
    exact Range.le_of_ends hx hy (le_of_min_equals hs · · h)
  have hge (h : r.greaterEqual info r') : y ≤ x ∧ (y = x → r'.upper.eval ρ = r.lower.eval ρ) := by
    rw [Range.greaterEqual, hl] at h
    exact Range.le_of_ends hy hx fun hhi hlo => ge_of_max_equals hs hlo hhi h
  cases operation with
  | less =>
    obtain ⟨hle, heq⟩ := hle (Bool.and_eq_true_iff.mp h).2
    exact decide_eq_true (hle.lt_of_ne fun e => hls h (heq e))
  | lessEqual => exact decide_eq_true (hle h).1
  | greater =>
    obtain ⟨hle, heq⟩ := hge (Bool.and_eq_true_iff.mp h).2
    exact decide_eq_true (hle.lt_of_ne fun e => hg h (heq e))
  | greaterEqual => exact decide_eq_true (hge h).1

end

/-- **Comparisons are folded rightly if and only if the strict comparisons of ranges tell their ends
apart**, and an upper end that is negative is not zero. -/
theorem visitRelational_sound_iff (info : ValueRangeInfo) (ranges : ℕ → Option Range) (isInteger : ℕ → Bool)
    (ρ : ℕ → ℤ) (left right : ℕ) (r r' : Range) (x₀ y₀ : ℤ) (hleft : ranges left = some r)
    (hright : ranges right = some r') (hx₀ : r.Contains ρ x₀) (hy₀ : r'.Contains ρ y₀)
    (hu : Unrounded info (·.operators.min r.upper r'.lower))
    (hl : Unrounded info (·.operators.max r.lower r'.upper)) :
    (∀ x y, r.Contains ρ x → r'.Contains ρ y →
      (∀ operation b, visitRelational info ranges isInteger (.relational operation left right) = some b →
        operation.holds x y = b) ∧
      (∀ b, visitRelational info ranges isInteger (.identity left right) = some b → decide (x = y) = b) ∧
      (r.less info r' → x < y) ∧ (r.greater info r' → y < x) ∧ (r.isNegative → x < 0)) ↔
    (r.less info r' → r.upper.eval ρ ≠ r'.lower.eval ρ) ∧
      (r.greater info r' → r'.upper.eval ρ ≠ r.lower.eval ρ) ∧
      (r.isNegative → r.upper.eval ρ ≠ some (.int 0)) := by
  constructor
  · intro h
    refine ⟨fun hls he => ?_, fun hg he => ?_, fun hng he => ?_⟩
    · obtain ⟨n, hn, hn'⟩ := exists_common hx₀ hy₀ he
      exact absurd ((h n n hn hn').2.2.1 hls) (lt_irrefl n)
    · obtain ⟨n, hn', hn⟩ := exists_common hy₀ hx₀ he
      exact absurd ((h n n hn hn').2.2.2.1 hg) (lt_irrefl n)
    · obtain ⟨lo, hi, hlo, hhi, hle, hle'⟩ := hx₀
      obtain rfl := some.inj (hhi.symm.trans he)
      have hz : r.Contains ρ 0 := ⟨lo, _, hlo, hhi, le_trans hle hle', le_rfl⟩
      exact absurd ((h 0 y₀ hz hy₀).2.2.2.2 hng) (lt_irrefl 0)
  · rintro ⟨hls, hg, hng⟩ x y hx hy
    have ha {operation : Operation} (h : operation.apply info r r') : operation.holds x y :=
      apply_sound hx hy hu hl hls hg h
    refine ⟨fun operation b h => ?_, fun b h => ?_, fun h => ?_, fun h => ?_, fun h => ?_⟩
    · simp only [visitRelational, hleft, hright, Option.bind_eq_bind, Option.bind_some] at h
      obtain ⟨_, -, h⟩ := Option.bind_eq_some_iff.mp h
      split_ifs at h with ht hf
      · exact (ha ht).trans (some.inj h)
      · have := ha hf
        rw [holds_negate] at this
        simpa [← some.inj h] using this
    · simp only [visitRelational, hleft, hright, Option.bind_eq_bind, Option.bind_some] at h
      obtain ⟨_, -, h⟩ := Option.bind_eq_some_iff.mp h
      split_ifs at h with ht
      rw [← some.inj h]
      exact decide_eq_true (handleEqualityCheck_sound hx hy ht)
    · exact of_decide_eq_true (@ha .less h)
    · exact of_decide_eq_true (@ha .greater h)
    · obtain ⟨hle, hz⟩ := Range.nonpos_of_isNegative hx h
      exact hle.lt_of_ne fun e => hng h (hz e)

/-- `2^53 < 2^53 + 2` -/
theorem visitRelational_sound_constants :
    visitRelational ⟨convertToJavaScriptConstant, 4⟩ (constants (2 ^ 53) (2 ^ 53 + 2)) (fun _ => true)
        (.relational .less 1 2) = some true ∧
      Operation.less.holds (2 ^ 53) (2 ^ 53 + 2) = true := by
  have hm (n : ℤ) : Range.Contains (fun _ => 0) ⟨.int n, .int n⟩ n := ⟨_, _, rfl, rfl, le_rfl, le_rfl⟩
  have h := (visitRelational_sound_iff ⟨convertToJavaScriptConstant, 4⟩ (constants (2 ^ 53) (2 ^ 53 + 2))
    (fun _ => true) (fun _ => 0) 1 2 _ _ (2 ^ 53) (2 ^ 53 + 2) rfl rfl (hm _) (hm _)
    (by unfold Unrounded; decide) (by unfold Unrounded; decide)).mpr (by decide)
  exact ⟨by decide, (h _ _ (hm _) (hm _)).1 .less true (by decide)⟩

/-- `visitInstruction` of an integer whose sign is not known. -/
def Range.ofInstruction (instruction : ℕ) : Range :=
  ⟨.instruction instruction false, .instruction instruction false⟩

/-- `(0 - a) - b > (0 - b) - a` is folded to `true`, although the two are equal, and the negation of a
`PositiveValue`, which may be zero, is taken to be negative. -/
theorem visitRelational_not_strict : ∃ (info : ValueRangeInfo) (ranges : ℕ → Option Range) (ρ : ℕ → ℤ),
    info.fold = convertToJavaScriptConstant ∧
      (∀ i range, ranges i = some range → range.Contains ρ (ρ i)) ∧
      ranges 2 = some (((Range.mk intZero intZero).sub info (.ofInstruction 0)).sub info (.ofInstruction 1)) ∧
      ranges 3 = some (((Range.mk intZero intZero).sub info (.ofInstruction 1)).sub info (.ofInstruction 0)) ∧
      visitRelational info ranges (fun _ => true) (.relational .greater 2 3) = some true ∧
      ρ 2 = 0 - ρ 0 - ρ 1 ∧ ρ 3 = 0 - ρ 1 - ρ 0 ∧
      ∃ r : Range, r.upper = .negate (.instruction 4 true) ∧ r.isNegative = true ∧ r.Contains ρ 0 := by
  refine ⟨⟨convertToJavaScriptConstant, 8⟩, fun i => [.ofInstruction 0, .ofInstruction 1,
    ⟨.subtract (.negate (.instruction 0 false)) (.instruction 1 false),
      .subtract (.negate (.instruction 0 false)) (.instruction 1 false)⟩,
    ⟨.subtract (.negate (.instruction 1 false)) (.instruction 0 false),
      .subtract (.negate (.instruction 1 false)) (.instruction 0 false)⟩][i]?,
    fun i => if i = 0 then 1 else if i = 1 then 2 else if i = 4 then 0 else -3, rfl, ?_, by decide, by decide,
    by decide, rfl, rfl, ⟨.minInt, .negate (.instruction 4 true)⟩, rfl, rfl,
    ⟨_, _, rfl, rfl, by decide, by decide⟩⟩
  intro i range hr
  obtain ⟨hi, rfl⟩ := List.getElem?_eq_some_iff.mp hr
  rw [show List.length _ = 4 from rfl] at hi
  interval_cases i <;> exact ⟨_, _, rfl, rfl, by decide, by decide⟩

end Comparisons

/-! ### Masks and moduli -/

/-- `left & right` in JavaScript, as an unsigned number.  The constant system folds it to the same. -/
def bitAnd (left right : ℤ) : ℤ := (BitVec.ofInt 32 left &&& BitVec.ofInt 32 right).toNat

/-- `operator &` of values. -/
def Value.and : Value → Value → Value
  | .int left, .int right => .int (bitAnd left right)
  | _, _ => .unknown

/-- The upper end of `&` for ranges that are positive. -/
def andUpper (info : ValueRangeInfo) (upper other : Value) : Value :=
  if info.operators.min upper other = .unknown then
    let up := if upper.isIntValue then upper else other
    if !up.isIntValue && !upper.equals other then .maxInt else up
  else info.operators.min upper other

/-- `operator &` of ranges. -/
def Range.and (info : ValueRangeInfo) (this other : Range) : Range :=
  if this.isSingleValue && other.isSingleValue && this.lower.isIntValue && other.lower.isIntValue then
    normalize (this.lower.and other.lower) (this.upper.and other.upper)
  else if this.isPositive && other.isPositive then
    normalize intZero (andUpper info this.upper other.upper)
  else if this.isPositive then normalize intZero this.upper
  else if other.isPositive then normalize intZero other.upper
  else unbound

namespace SsaValueRangeAnalyzer

def tryComputeRange (range : Range) : Range :=
  if range.isPositive then .normalize intZero range.upper
  else if range.isNegative then .normalize range.lower intZero
  else .unbound

variable (info : ValueRangeInfo) (ranges : ℕ → Option Range) (isInteger : ℕ → Bool) (left right : ℕ)

/-- `visitBitAnd`, where `nodeIsInteger` is that of the node.  An instruction that is an integer has a
range. -/
def visitBitAnd (nodeIsInteger : Bool) : Range :=
  if !nodeIsInteger then .unbound
  else if isInteger left && isInteger right then
    ((ranges left).getD .unbound).and info ((ranges right).getD .unbound)
  else if isInteger left then tryComputeRange ((ranges left).getD .unbound)
  else if isInteger right then tryComputeRange ((ranges right).getD .unbound)
  else .unbound

def handleInvokeModulo (isNumber : ℕ → Bool) : Range :=
  match ranges right with
  | none => .unbound
  | some divisor =>
    if isInteger left && isInteger right then
      if divisor.isPositive then .normalize intZero (info.operators.sub divisor.upper intOne)
      else if divisor.isNegative then
        .normalize intZero (info.operators.sub (.negate divisor.lower) intOne)
      else .unbound
    else if isNumber left && isNumber right then
      if divisor.isPositive then .normalize intZero divisor.upper
      else if divisor.isNegative then .normalize intZero (.negate divisor.lower)
      else .unbound
    else .unbound

end SsaValueRangeAnalyzer

section Masks

theorem bitAnd_nonneg (x y : ℤ) : 0 ≤ bitAnd x y := Int.natCast_nonneg _

theorem bitAnd_comm (x y : ℤ) : bitAnd x y = bitAnd y x := by
  rw [bitAnd, BitVec.and_comm, bitAnd]

theorem bitAnd_le (hx : 0 ≤ x) (y : ℤ) : bitAnd x y ≤ x := by
  have hle : (BitVec.ofInt 32 x &&& BitVec.ofInt 32 y).toNat ≤ (x % 2 ^ 32).toNat := by
    rw [BitVec.toNat_and, BitVec.toNat_ofInt]
    exact Nat.and_le_left
  unfold bitAnd
  omega

theorem bitAnd_eq_zero : (∀ y, bitAnd x y = 0) ↔ x % 2 ^ 32 = 0 := by
  have ho : bitAnd x (-1) = x % 2 ^ 32 := by
    have ha : BitVec.ofInt 32 (-1) = BitVec.allOnes 32 := by decide
    rw [bitAnd, ha, BitVec.and_allOnes, BitVec.toNat_ofInt]
    omega
  refine ⟨fun h => ho.symm.trans (h (-1)), fun h y => ?_⟩
  have hz : BitVec.ofInt 32 x = 0#32 := by
    refine BitVec.eq_of_toNat_eq ?_
    rw [BitVec.toNat_ofInt, BitVec.toNat_zero]
    omega
  rw [bitAnd, hz, BitVec.zero_and]
  rfl

/-- If the range is negative, the low bits of its integers are zero. -/
def Masked (ρ : ℕ → ℤ) (r : Range) : Prop := r.isNegative → ∀ x, r.Contains ρ x → x % 2 ^ 32 = 0

theorem contains_zero {v : Value} {c : ExtInt} {n z : ℤ} (hv : Gives ρ c v) (hn : .int n ≤ c)
    (hz : 0 ≤ z) (hle : z ≤ n) : (Range.normalize intZero v).Contains ρ z :=
  Range.contains_normalize (.inr rfl) hv (int_le_int.mpr hz) (le_trans (int_le_int.mpr hle) hn)

theorem contains_bitAnd (hx : r.Contains ρ x) (h : r.isPositive) (y : ℤ) :
    (Range.normalize intZero r.upper).Contains ρ (bitAnd x y) := by
  have hle := bitAnd_le (Range.nonneg_of_isPositive hx h) y
  obtain ⟨-, _, -, hhi, -, hle'⟩ := hx
  exact contains_zero (.inr hhi) hle' (bitAnd_nonneg x y) hle

theorem tryComputeRange_iff :
    (∀ x y, r.Contains ρ x → (tryComputeRange r).Contains ρ (bitAnd x y)) ↔ Masked ρ r := by
  unfold tryComputeRange
  split_ifs with hp hn
  · refine ⟨fun _ h x hx => ?_, fun _ x y hx => contains_bitAnd hx hp y⟩
    have := Range.nonneg_of_isPositive hx hp
    have := (Range.nonpos_of_isNegative hx h).1
    omega
  · refine ⟨fun h _ x hx => bitAnd_eq_zero.mp fun y => ?_, fun h x y hx => ?_⟩
    · obtain ⟨_, _, -, hhi, -, hle⟩ := h x y hx
      obtain rfl := some.inj (show some (ExtInt.int 0) = _ from hhi)
      exact le_antisymm (int_le_int.mp hle) (bitAnd_nonneg x y)
    · rw [bitAnd_eq_zero.mpr (h hn x hx) y]
      have hz := (Range.nonpos_of_isNegative hx hn).1
      obtain ⟨_, -, hlo, -, hle, -⟩ := hx
      exact Range.contains_normalize (.inr hlo) (.inr rfl) (le_trans hle (int_le_int.mpr hz)) le_rfl
  · exact ⟨fun _ h => absurd h hn, fun _ _ _ _ => Range.contains_unbound⟩

theorem eq_int_of_isSingleValue (hx : r.Contains ρ x) (h : r.isSingleValue) (hint : r.lower.isIntValue) :
    r = ⟨.int x, .int x⟩ := by
  obtain ⟨lower, upper⟩ := r
  obtain ⟨_, _, hlo, hhi, hle, hle'⟩ := hx
  cases lower with
  | int n =>
    cases upper with
    | int m =>
      obtain rfl := some.inj hlo
      obtain rfl := some.inj hhi
      obtain rfl : n = m := eq_of_beq h
      rw [le_antisymm (int_le_int.mp hle) (int_le_int.mp hle')]
    | _ => cases h
  | _ => cases hint

theorem andUpper_cases (info : ValueRangeInfo) (a b : Value) :
    andUpper info a b = a ∨ andUpper info a b = b ∨ andUpper info a b = .maxInt := by
  have hm : info.operators.min a b = .unknown ∨ info.operators.min a b = a ∨
      info.operators.min a b = b := by
    simp only [Operators.min, symbolicMin, valueMin]
    repeat' split
    all_goals simp
  unfold andUpper
  dsimp only
  split_ifs with hu
  · exact .inr (.inr rfl)
  · exact .inl rfl
  · exact .inr (.inr rfl)
  · exact .inr (.inl rfl)
  · exact (hm.resolve_left hu).imp_right .inl

theorem and_sound (hx : r.Contains ρ x) (hy : r'.Contains ρ y) :
    (r.and info r').Contains ρ (bitAnd x y) := by
  have hr (hp : r'.isPositive) := contains_bitAnd hy hp x
  rw [bitAnd_comm] at hr
  unfold Range.and
  split_ifs with hs hp hp hp
  · simp only [Bool.and_eq_true] at hs
    rw [eq_int_of_isSingleValue hx hs.1.1.1 hs.1.2,
      eq_int_of_isSingleValue hy hs.1.1.2 hs.2]
    exact ⟨_, _, rfl, rfl, le_rfl, le_rfl⟩
  · rw [Bool.and_eq_true] at hp
    rcases andUpper_cases info r.upper r'.upper with h | h | h <;> rw [h]
    · exact contains_bitAnd hx hp.1 y
    · exact hr hp.2
    · exact contains_zero (.inr rfl) (le_top _) (bitAnd_nonneg x y) le_rfl
  · exact contains_bitAnd hx hp y
  · exact hr hp
  · exact Range.contains_unbound

theorem handleInvokeModulo_sound {ranges : ℕ → Option Range} {isInteger isNumber : ℕ → Bool}
    {left right : ℕ} (hy : ((ranges right).getD .unbound).Contains ρ y) (hne : y ≠ 0)
    (ho : isInteger left = true → isInteger right = true → ((ranges right).getD .unbound).isPositive →
      Unrounded info (·.operators.sub ((ranges right).getD .unbound).upper intOne)) :
    (handleInvokeModulo info ranges isInteger left right isNumber).Contains ρ (x % y) := by
  have hn := Int.emod_nonneg x hne
  have hlt := Int.emod_lt x hne
  unfold handleInvokeModulo
  cases hd : ranges right with
  | none => exact Range.contains_unbound
  | some divisor =>
    rw [hd, getD_some] at hy ho
    have hp := Range.nonneg_of_isPositive hy
    have he (h : divisor.isNegative) := (Range.nonpos_of_isNegative hy h).1
    obtain ⟨lo, hi, hlo, hhi, hle, hle'⟩ := hy
    have hng : (Value.negate divisor.lower).eval ρ = some (-lo) :=
      map_eq_some_iff.mpr ⟨lo, hlo, rfl⟩
    have hs : info.exact.operators.Sound ρ := tie_sound (exactFold_exact info) _
    have hu := hs.sub (b := .int 1) hhi rfl (compatible_int_right _ _)
    -- The negation of the lower end is not folded.
    have hl : Gives ρ (-lo + .int (-1)) (info.operators.sub (.negate divisor.lower) intOne) := by
      unfold ValueRangeInfo.operators
      cases info.depth with
      | zero => exact .inl rfl
      | succ depth => exact .inr (subtract_eval (b := .int 1) hng rfl (compatible_int_right _ _))
    dsimp only
    split_ifs with hint h h hnm h h
    · rw [Bool.and_eq_true] at hint
      have hr := ho hint.1 hint.2 h
      dsimp only [Unrounded] at hr
      rw [hr]
      have := hp h
      exact contains_zero hu (int_le_add hle' (le_refl (ExtInt.int (-1)))) hn (by omega)
    · have := he h
      exact contains_zero hl (int_le_add (int_le_neg hle) (le_refl (ExtInt.int (-1)))) hn
        (by omega)
    · exact Range.contains_unbound
    · have := hp h
      exact contains_zero (.inr hhi) hle' hn (by omega)
    · have := he h
      exact contains_zero (.inr hng) (int_le_neg hle) hn (by omega)
    · exact Range.contains_unbound
    · exact Range.contains_unbound

/-- **The ranges of masks and moduli are right if and only if no single known operand is negative** with
low bits that are not zero. -/
theorem masks_sound_iff (info : ValueRangeInfo) (ranges : ℕ → Option Range)
    (isInteger isNumber : ℕ → Bool) (nodeIsInteger : Bool) (ρ : ℕ → ℤ) (left right : ℕ)
    (hnone : ∀ i, isInteger i = false → ranges i = none)
    (hone : isInteger left = true → isInteger right = true → ((ranges right).getD .unbound).isPositive →
      Unrounded info (·.operators.sub ((ranges right).getD .unbound).upper intOne)) :
    (∀ x y, ((ranges left).getD .unbound).Contains ρ x → ((ranges right).getD .unbound).Contains ρ y →
      (visitBitAnd info ranges isInteger left right nodeIsInteger).Contains ρ (bitAnd x y) ∧
      (y ≠ 0 → (handleInvokeModulo info ranges isInteger left right isNumber).Contains ρ (x % y))) ↔
    (nodeIsInteger = true →
      (isInteger left = true → isInteger right = false → Masked ρ ((ranges left).getD .unbound)) ∧
      (isInteger right = true → isInteger left = false → Masked ρ ((ranges right).getD .unbound))) := by
  have hu (i : ℕ) (h : isInteger i = false) (z : ℤ) :
      ((ranges i).getD .unbound).Contains ρ z := by
    rw [hnone i h]
    exact Range.contains_unbound
  constructor
  · intro h hn
    refine ⟨fun hl hr => ?_, fun hr hl => ?_⟩
    · refine tryComputeRange_iff.mp fun x y hx => ?_
      simpa [visitBitAnd, hn, hl, hr] using (h x y hx (hu right hr y)).1
    · refine tryComputeRange_iff.mp fun y x hy => ?_
      rw [bitAnd_comm]
      simpa [visitBitAnd, hn, hl, hr] using (h x y (hu left hl x) hy).1
  · intro h x y hx hy
    refine ⟨?_, fun hne => handleInvokeModulo_sound hy hne hone⟩
    unfold visitBitAnd
    split_ifs with hn hb hl hr
    · exact Range.contains_unbound
    · exact and_sound hx hy
    · have hm := (h (by simpa using hn)).1 hl (by simpa [hl] using hb)
      exact tryComputeRange_iff.mpr hm x y hx
    · have hm := (h (by simpa using hn)).2 hr (by simpa using hl)
      rw [bitAnd_comm]
      exact tryComputeRange_iff.mpr hm y x hy
    · exact Range.contains_unbound

/-- `x & 4` and `x % 4` for an `x` that is not known to be an integer. -/
theorem masks_sound_constant : Range.Contains (fun _ => 0) ⟨.int 0, .int 4⟩ (bitAnd 7 4) ∧
    Range.Contains (fun _ => 0) ⟨.int 0, .int 4⟩ (7 % 4) := by
  have h := (masks_sound_iff ⟨some, 4⟩ (fun i => if i = 1 then some ⟨.int 4, .int 4⟩ else none) (· == 1)
    (fun _ => true) true (fun _ => 0) 0 1 (fun i hi => if_neg (by simpa using hi))
    (fun h => absurd h (by decide))).mpr
    (fun _ => ⟨fun h => absurd h (by decide), fun _ _ h => absurd h (by decide)⟩) 7 4
    Range.contains_unbound ⟨_, _, rfl, rfl, le_rfl, le_rfl⟩
  exact ⟨h.1, h.2 (by decide)⟩

/-- `-1 & 5` is `5`, and the range is `[-1, 0]`. -/
theorem visitBitAnd_negative : ∃ ranges : ℕ → Option Range,
    ranges 0 = some ⟨.int (-1), .int (-1)⟩ ∧ ranges 1 = none ∧ bitAnd (-1) 5 = 5 ∧
      ¬(visitBitAnd ⟨convertToJavaScriptConstant, 4⟩ ranges (· == 0) 0 1 true).Contains
        (fun _ => 0) (bitAnd (-1) 5) := by
  refine ⟨fun i => if i = 0 then some ⟨.int (-1), .int (-1)⟩ else none, rfl, rfl, by decide, ?_⟩
  rintro ⟨_, _, -, hhi, -, hle⟩
  obtain rfl := some.inj hhi
  exact absurd hle (by decide)

end Masks

end DartSdk.Compiler.ValueRange
