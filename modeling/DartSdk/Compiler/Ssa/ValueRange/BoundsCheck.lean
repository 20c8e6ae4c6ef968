import DartSdk.Compiler.Ssa.ValueRange.Evaluation
import Mathlib.Tactic.IntervalCases

/-!
# Bounds checks and conditional branches

`visitBoundsCheck` and `visitConditionalBranch` of `SsaValueRangeAnalyzer`.  The range map says what is
known of the instructions so far, and a range conversion attaches a range to an instruction where the
check has passed or the branch is taken.

The first test of `visitBoundsCheck` compares the index with the upper end of the range of the length,
which is the length itself as long as no branch has put a constant there
(`visitBoundsCheck_after_branch`).  Two more tests are not strict where they should be: an upper end that
is negative may be zero, and ends that are not `==` may stand for the same.

* `boundsCheck_sound`: what is removed or marked is right if the ends say exactly what the tests take them
  to say, and the range conversions are right without that.
-/

namespace DartSdk.Compiler.ValueRange

open ExtInt List Option Range

/-- `HBoundsCheck.staticChecks`, or that the check is removed. -/
inductive StaticChecks
  | fullCheck
  | alwaysFalse
  | alwaysAboveZero
  | alwaysBelowLength
  | removed
  deriving DecidableEq

/-- A new `HRangeConversion` of the instruction `input`. -/
structure RangeConversion where
  input : ℕ
  range : Range
  deriving DecidableEq

structure BoundsCheckResult where
  staticChecks : StaticChecks
  conversions : List RangeConversion
  /-- The range of the check itself. -/
  range : Range
  deriving DecidableEq

inductive Operation
  | less
  | lessEqual
  | greater
  | greaterEqual
  deriving DecidableEq

inductive Condition
  | relational (operation : Operation) (left right : ℕ)
  | identity (left right : ℕ)
  | other

/-- The range conversions at the start of the two branches. -/
structure BranchResult where
  trueBranch : List RangeConversion
  falseBranch : List RangeConversion
  deriving DecidableEq

namespace SsaValueRangeAnalyzer

variable (info : ValueRangeInfo) (ranges : ℕ → Option Range)

section

variable (indexRange lengthRange : Range)

def maxIndex (lengthRange : Range) : Value := info.operators.sub lengthRange.upper ValueRangeInfo.intOne

/-- The index is strictly below the upper end of the length. -/
def belowUpper : Bool :=
  maxIndex info lengthRange != .maxInt &&
    (info.operators.min indexRange.upper (maxIndex info lengthRange)).equals indexRange.upper

/-- The index is strictly below the lower end of the length. -/
def belowLower : Bool :=
  !indexRange.upper.equals lengthRange.lower &&
    (info.operators.min indexRange.upper lengthRange.lower).equals indexRange.upper

def belowLength : Bool := belowUpper info indexRange lengthRange || belowLower info indexRange lengthRange

def staticChecks : StaticChecks :=
  if indexRange.isPositive && belowLength info indexRange lengthRange then .removed
  else if indexRange.isNegative || lengthRange.less info indexRange then .alwaysFalse
  else if indexRange.isPositive then .alwaysAboveZero
  else if belowLength info indexRange lengthRange then .alwaysBelowLength
  else .fullCheck

/-- If the test passes, the lower end of the length is at least that of the index. -/
def lengthConversions (length : ℕ) : List RangeConversion :=
  if indexRange.isPositive then
    let low := info.operators.max lengthRange.lower indexRange.lower
    if low = .unknown then [] else [⟨length, normalize low lengthRange.upper⟩]
  else []

def newIndexRange : Range :=
  indexRange.intersection info (normalize ValueRangeInfo.intZero (maxIndex info lengthRange))

end

def visitBoundsCheck (index length : ℕ) : BoundsCheckResult :=
  let indexRange := (ranges index).getD unbound
  match ranges length with
  | none => ⟨.fullCheck, [], indexRange⟩
  | some lengthRange =>
    let checks := staticChecks info indexRange lengthRange
    if checks = .alwaysFalse then ⟨checks, [], indexRange⟩
    else
      let conversions := lengthConversions info indexRange lengthRange length
      let newIndexRange := newIndexRange info indexRange lengthRange
      if indexRange.equals newIndexRange then ⟨checks, conversions, indexRange⟩
      else ⟨checks, conversions ++ [⟨index, newIndexRange⟩], newIndexRange⟩

def negateOperation : Operation → Operation
  | .less => .greaterEqual
  | .lessEqual => .greater
  | .greater => .lessEqual
  | .greaterEqual => .less

def flipOperation : Operation → Operation
  | .less => .greater
  | .lessEqual => .greaterEqual
  | .greater => .less
  | .greaterEqual => .lessEqual

/-- The range of the integers that compare as they should with those of `rightRange`. -/
def constraint (operation : Operation) (rightRange : Range) : Range :=
  match operation with
  | .less => normalize .minInt (info.operators.sub rightRange.upper ValueRangeInfo.intOne)
  | .lessEqual => normalize .minInt rightRange.upper
  | .greater => normalize (info.operators.add rightRange.lower ValueRangeInfo.intOne) .maxInt
  | .greaterEqual => normalize rightRange.lower .maxInt

def computeConstrainedRange (operation : Operation) (leftRange rightRange : Range) : Range :=
  (constraint info operation rightRange).intersection info leftRange

/-- The conversion of one operand of the condition in one branch. -/
def convert (input : ℕ) (inputRange range : Range) : List RangeConversion :=
  if inputRange.equals range then [] else [⟨input, range⟩]

def convertOperands (operation : Operation) (left right : ℕ) (leftRange rightRange : Range) :
    List RangeConversion :=
  convert left leftRange (computeConstrainedRange info operation leftRange rightRange) ++
    convert right rightRange (computeConstrainedRange info (flipOperation operation) rightRange leftRange)

/-- `visitConditionalBranch`, where `onlyTrue` and `onlyFalse` say that the block is the only predecessor
of the branch. -/
def visitConditionalBranch (isInteger : ℕ → Bool) (condition : Condition) (onlyTrue onlyFalse : Bool) :
    BranchResult :=
  match condition with
  | .relational operation left right =>
    if isInteger left && isInteger right then
      match ranges left, ranges right with
      | some leftRange, some rightRange =>
        { trueBranch :=
            if onlyTrue then convertOperands info operation left right leftRange rightRange else []
          falseBranch :=
            if onlyFalse then
              convertOperands info (negateOperation operation) left right leftRange rightRange
            else [] }
      | _, _ => ⟨[], []⟩
    else ⟨[], []⟩
  | _ => ⟨[], []⟩

end SsaValueRangeAnalyzer

/-- The comparison as the program computes it. -/
def Operation.holds : Operation → ℤ → ℤ → Bool
  | .less, x, y => x < y
  | .lessEqual, x, y => x ≤ y
  | .greater, x, y => x > y
  | .greaterEqual, x, y => x ≥ y

/-! ### `Unknown` as an operand -/

/-- What comes of adding `Unknown` to a value that stands for `x`. -/
def Spread (ρ : ℕ → ℤ) (x : ExtInt) (v : Value) : Prop :=
  v = .unknown ∨ (v.eval ρ = some x ∧ ∀ n, x ≠ .int n)

structure Operators.Spreads (ρ : ℕ → ℤ) (o : Operators) : Prop where
  add_unknown {a : Value} {x : ExtInt} : a.eval ρ = some x → Spread ρ x (o.add a .unknown)
  sub_unknown {a : Value} {x : ExtInt} : a.eval ρ = some x → Spread ρ x (o.sub a .unknown)
  neg_unknown : o.neg .unknown = .unknown

namespace Operators

section Unknown

variable {ρ : ℕ → ℤ} {fold : ℤ → Option ℤ} {o : Operators} {x y : ExtInt} {a : Value}

theorem infinite_add (hx : ∀ n, x ≠ .int n) (hxy : Compatible x y) : ∀ n, x + y ≠ .int n := by
  cases x <;> cases y <;> simp_all

/-- The operators of a binary operation whose operands stand for `x` and `y`. -/
theorem spread_regroup {s t u v : Value} {z : ExtInt} (hxy : Compatible x y) (hs : Spread ρ x s)
    (ht : Spread ρ z t) (hz : (∀ n, z ≠ .int n) → ∀ n, y ≠ .int n)
    (hu : s.eval ρ = some x → Gives ρ (x + y) u) (hv : t.eval ρ = some z → Gives ρ (x + y) v) :
    Spread ρ (x + y) (if s.isSimple then u else if t.isSimple then v else .unknown) := by
  split_ifs with hsm hsm
  · obtain ⟨hvl, hi⟩ := of_isSimple hs hsm
    exact (hu hvl).imp_right fun h => ⟨h, infinite_add hi hxy⟩
  · obtain ⟨hvl, hi⟩ := of_isSimple ht hsm
    refine (hv hvl).imp_right fun h => ⟨h, ?_⟩
    rw [add_comm]
    exact infinite_add (hz hi) (compatible_comm hxy)
  · exact .inl rfl

theorem neg_ne_int (hx : ∀ n, x ≠ .int n) (n : ℤ) : -x ≠ .int n := by
  cases x <;> simp_all

theorem not_equals_unknown (ha : a.eval ρ = some x) : Value.unknown.equals a = false := by
  cases a with
  | unknown => exact nomatch ha
  | _ => rfl

theorem spreads_unknown (fold : ℤ → Option ℤ) (ho : Sound ρ o) (h : Spreads ρ o)
    (ha : a.eval ρ = some x) :
    Spread ρ x (plus fold o a .unknown) ∧ Spread ρ x (minus fold o a .unknown) := by
  cases a with
  | marker | unknown => cases ha
  | int | instruction =>
    refine ⟨.inl (ho.unknown_add _), .inl ?_⟩
    simp only [minus, Value.isZero, Value.equals, Bool.false_eq_true, ↓reduceIte, h.neg_unknown,
      ho.unknown_add]
  | maxInt | minInt =>
    obtain rfl := some.inj ha
    refine ⟨.inr ⟨rfl, ?_⟩, .inr ⟨rfl, ?_⟩⟩ <;> rintro _ ⟨⟩
  | add l r =>
    obtain ⟨u, v, hu, hv, huv, rfl⟩ := eval_add ha
    exact ⟨spread_regroup huv (h.add_unknown hu) (h.add_unknown hv) id (ho.add · hv huv)
      (ho.add hu · huv), spread_regroup huv (h.sub_unknown hu) (h.sub_unknown hv) id
      (ho.add · hv huv) (ho.add hu · huv)⟩
  | subtract l r =>
    obtain ⟨u, v, hu, hv, huv, rfl⟩ := eval_subtract ha
    constructor
    · exact spread_regroup huv (h.add_unknown hu) (.inl (ho.unknown_sub r)) id (ho.sub · hv huv)
        (by rw [ho.unknown_sub]; rintro ⟨⟩)
    · exact spread_regroup huv (h.sub_unknown hu) (h.add_unknown hv) neg_ne_int (ho.sub · hv huv)
        (ho.sub hu · huv)
  | negate v =>
    obtain ⟨u, hu, rfl⟩ := eval_negate ha
    simp only [plus, minus, Value.isZero, Bool.false_eq_true, ↓reduceIte, not_equals_unknown hu,
      h.neg_unknown]
    exact ⟨.inl (ho.unknown_sub v), .inl (ho.unknown_sub v)⟩

theorem tie_spreads (hf : ExactFold fold) (depth : ℕ) : Spreads ρ (tie fold depth) := by
  induction depth with
  | zero => exact ⟨fun _ => .inl rfl, fun _ => .inl rfl, rfl⟩
  | succ depth ih =>
    have ho : Sound ρ (tie fold depth) := tie_sound hf depth
    exact ⟨fun ha => (spreads_unknown fold ho ih ha).1, fun ha => (spreads_unknown fold ho ih ha).2, rfl⟩

/-- A minimum with `Unknown` is not the other value, unless that one is infinitely small. -/
theorem min_unknown (h : Spreads ρ o) (ha : a.eval ρ = some x) (hx : x ≠ .bot) :
    (min o a .unknown).equals a = false := by
  have hvl : valueMin o a .unknown = .unknown := by
    have he : a.equals .unknown = false := by
      cases a with
      | unknown => exact nomatch ha
      | _ => rfl
    have hn : (o.sub a .unknown).isNegative = false := by
      rcases h.sub_unknown ha with hu | ⟨hv, hinf⟩
      · rw [hu]
        rfl
      · by_contra hneg
        have hle := (signs_of_eval hv).2 (by simpa using hneg)
        cases x <;> simp_all
    simp [valueMin, he, hn]
  cases a with
  | marker | unknown => exact nomatch ha
  | int | maxInt => rfl
  | minInt => exact absurd (some.inj ha).symm hx
  | instruction | add | subtract | _ =>
    exact (congrArg (Value.equals · _) hvl).trans rfl

end Unknown

end Operators

/-! ### What the analyzer concludes -/

/-- What the checks that are left say of the index and the length. -/
def StaticChecks.Correct (checks : StaticChecks) (index length : ℤ) : Prop :=
  match checks with
  | .fullCheck => True
  | .alwaysFalse => ¬ (0 ≤ index ∧ index < length)
  | .alwaysAboveZero => 0 ≤ index
  | .alwaysBelowLength => index < length
  | .removed => 0 ≤ index ∧ index < length

namespace SsaValueRangeAnalyzer

/-- The index is below the length for a reason that the ends of the ranges bear out, with no constant
rounded: the upper end of the length is the length, or the upper end of the index and the lower end of
the length, which are not `==`, stand for different integers. -/
def ExactBelow (info : ValueRangeInfo) (ρ : ℕ → ℤ) (indexRange lengthRange : Range) (length : ℤ) : Prop :=
  (belowUpper info indexRange lengthRange ∧ Unrounded info (belowUpper · indexRange lengthRange) ∧
    lengthRange.upper.eval ρ = some (.int length)) ∨
  (belowLower info indexRange lengthRange ∧ Unrounded info (belowLower · indexRange lengthRange) ∧
    indexRange.upper.eval ρ ≠ lengthRange.lower.eval ρ)

/-- The ends of the ranges say what the tests of `visitBoundsCheck` take them to say.  Each clause is about
a test that is reached and passes. -/
structure ExactEnds (info : ValueRangeInfo) (ρ : ℕ → ℤ) (indexRange lengthRange : Range) (length : ℤ) :
    Prop where
  below : indexRange.isPositive ∨ ¬(indexRange.isNegative ∨ lengthRange.less info indexRange) →
    belowLength info indexRange lengthRange → ExactBelow info ρ indexRange lengthRange length
  negative : ¬(indexRange.isPositive ∧ belowLength info indexRange lengthRange) →
    indexRange.isNegative → indexRange.upper.eval ρ ≠ some (.int 0)
  less : ¬(indexRange.isPositive ∧ belowLength info indexRange lengthRange) → ¬indexRange.isNegative →
    lengthRange.less info indexRange → Unrounded info (lengthRange.less · indexRange)

/-- No constant of a new range at a bounds check is rounded. -/
def UnroundedCheck (info : ValueRangeInfo) (ranges : ℕ → Option Range) (index length : ℕ) : Prop :=
  ∀ lengthRange, ranges length = some lengthRange →
    Unrounded info (lengthConversions · ((ranges index).getD unbound) lengthRange length) ∧
    Unrounded info (newIndexRange · ((ranges index).getD unbound) lengthRange)

/-- No constant of a new range at a branch is rounded. -/
def UnroundedOperands (info : ValueRangeInfo) (ranges : ℕ → Option Range) (operation : Operation)
    (left right : ℕ) : Prop :=
  ∀ leftRange rightRange, ranges left = some leftRange → ranges right = some rightRange →
    Unrounded info (convertOperands · operation left right leftRange rightRange)

section Sound

variable {info : ValueRangeInfo} {ranges : ℕ → Option Range} {ρ : ℕ → ℤ}
  {indexRange lengthRange : Range} {i n : ℤ}

/-- What is known of the index and the length. -/
structure Known (info : ValueRangeInfo) (ρ : ℕ → ℤ) (indexRange lengthRange : Range) (i n : ℤ) : Prop where
  fold : ExactFold info.fold
  index : indexRange.Contains ρ i
  length : lengthRange.Contains ρ n

section

variable (h : Known info ρ indexRange lengthRange i n)

include h

theorem Known.sound : info.operators.Sound ρ :=
  Operators.tie_sound h.fold _

theorem Known.maxIndex {hi : ExtInt} (hhi : lengthRange.upper.eval ρ = some hi) :
    Gives ρ (hi + .int (-1)) (maxIndex info lengthRange) := by
  have ho : ValueRangeInfo.intOne.eval ρ = some (.int 1) := rfl
  exact h.sound.sub hhi ho (compatible_int_right _ _)

/-- The test against the upper end, which is not infinite, so it is the length. -/
theorem Known.lt_of_belowUpper (hup : lengthRange.upper.eval ρ = some (.int n))
    (hb : belowUpper info indexRange lengthRange) : i < n := by
  obtain ⟨-, iu, -, hiu, -, hi⟩ := id h.index
  rw [belowUpper, Bool.and_eq_true] at hb
  rcases h.maxIndex hup with hu | hv
  · have hs : info.operators.Spreads ρ := Operators.tie_spreads h.fold _
    have hbt : iu ≠ .bot := by
      rintro rfl
      exact not_int_le_bot hi
    rw [hu, Operators.min_unknown hs hiu hbt] at hb
    exact nomatch hb.2
  have hle := Operators.le_of_min_equals h.sound hiu hv hb.2
  have := int_le_int.mp (le_trans hi hle)
  omega

/-- The test against the lower end: equality would make the two ends the same. -/
theorem Known.lt_of_belowLower (hne : indexRange.upper.eval ρ ≠ lengthRange.lower.eval ρ)
    (hb : belowLower info indexRange lengthRange) : i < n := by
  rw [belowLower, Bool.and_eq_true] at hb
  obtain ⟨hle, heq⟩ := le_of_ends h.index h.length (Operators.le_of_min_equals h.sound · · hb.2)
  exact hle.lt_of_ne fun hin => hne (heq hin)

theorem Known.le_of_less (hl : lengthRange.less info indexRange) : n ≤ i := by
  rw [less, Bool.and_eq_true] at hl
  exact (le_of_ends h.length h.index (Operators.le_of_min_equals h.sound · · hl.2)).1

theorem Known.lengthConversions (hlt : i < n) {length : ℕ} (hl : ρ length = n) :
    ∀ c ∈ lengthConversions info indexRange lengthRange length, c.range.Contains ρ (ρ c.input) := by
  obtain ⟨_, -, hil, -, hle, -⟩ := h.index
  obtain ⟨_, _, hnl, hnu, hn, hln⟩ := h.length
  intro c hc
  unfold SsaValueRangeAnalyzer.lengthConversions at hc
  dsimp only at hc
  split at hc
  · split at hc
    · exact nomatch hc
    obtain rfl := mem_singleton.mp hc
    rw [hl]
    rcases (Operators.extremes_cases h.sound hnl hil).2 with hu | ⟨he, -⟩ | ⟨he, -⟩
    · exact contains_normalize (.inl hu) (.inr hnu) hn hln
    · rw [he]
      exact contains_normalize (.inr hnl) (.inr hnu) hn hln
    · rw [he]
      exact contains_normalize (.inr hil) (.inr hnu)
        (le_trans hle (int_le_int.mpr (by omega))) hln
  · exact nomatch hc

theorem Known.newIndexRange (hi : 0 ≤ i) (hlt : i < n) :
    (newIndexRange info indexRange lengthRange).Contains ρ i := by
  obtain ⟨-, _, -, hnu, -, hl⟩ := h.length
  refine contains_intersection h.fold h.index ?_
  refine contains_normalize (.inr rfl) (h.maxIndex hnu) (int_le_int.mpr hi) ?_
  have hle := int_le_add hl (le_refl (ExtInt.int (-1)))
  exact le_trans (int_le_int.mpr (by omega)) hle

end

/-- **The static checks are right** if the ends are exact where the tests use them. -/
theorem staticChecks_correct (h : Known info.exact ρ indexRange lengthRange i n)
    (he : ExactEnds info ρ indexRange lengthRange n) :
    (staticChecks info indexRange lengthRange).Correct i n := by
  have hlt (hrc : indexRange.isPositive ∨
      ¬(indexRange.isNegative ∨ lengthRange.less info indexRange))
      (hb : belowLength info indexRange lengthRange) : i < n := by
    rcases he.below hrc hb with ⟨hp, hr, hu⟩ | ⟨hp, hr, hne⟩
    · exact h.lt_of_belowUpper hu (hr.symm.trans hp)
    · exact h.lt_of_belowLower hne (hr.symm.trans hp)
  unfold SsaValueRangeAnalyzer.staticChecks
  split_ifs with h₁ h₂ h₃ h₄
  · rw [Bool.and_eq_true] at h₁
    exact ⟨nonneg_of_isPositive h.index h₁.1, hlt (.inl h₁.1) h₁.2⟩
  · rw [Bool.and_eq_true] at h₁
    rintro ⟨hi, hin⟩
    by_cases hneg : indexRange.isNegative
    · obtain ⟨hle, hz⟩ := nonpos_of_isNegative h.index hneg
      exact he.negative h₁ hneg (hz (hle.antisymm hi))
    · have hl := (Bool.or_eq_true_iff.mp h₂).resolve_left hneg
      have := h.le_of_less ((he.less h₁ hneg hl).symm.trans hl)
      omega
  · exact nonneg_of_isPositive h.index h₃
  · rw [Bool.or_eq_true] at h₂
    exact hlt (.inr h₂) h₄
  · trivial

theorem contains_constraint (hf : ExactFold info.fold) {operation : Operation} {rightRange : Range}
    {x y : ℤ} (hy : rightRange.Contains ρ y) (hh : operation.holds x y) :
    (constraint info operation rightRange).Contains ρ x := by
  have hs : info.operators.Sound ρ := Operators.tie_sound hf _
  obtain ⟨_, hi, hlo, hhi, hl, hyl⟩ := hy
  cases operation with
  | less =>
    have hxy : x < y := of_decide_eq_true hh
    refine contains_normalize (.inr rfl) (hs.sub hhi rfl (compatible_int_right _ _)) (bot_le _) ?_
    exact le_trans (int_le_int.mpr (by omega)) (int_le_add hyl (le_refl (ExtInt.int (-1))))
  | lessEqual =>
    have hxy : x ≤ y := of_decide_eq_true hh
    exact contains_normalize (.inr rfl) (.inr hhi) (bot_le _) (le_trans (int_le_int.mpr hxy) hyl)
  | greater =>
    have hxy : y < x := of_decide_eq_true hh
    refine contains_normalize (hs.add hlo rfl (compatible_int_right _ _)) (.inr rfl) ?_ (le_top _)
    exact le_trans (add_le_int hl (le_refl (ExtInt.int 1))) (int_le_int.mpr (by omega))
  | greaterEqual =>
    have hxy : y ≤ x := of_decide_eq_true hh
    exact contains_normalize (.inr hlo) (.inr rfl) (le_trans hl (int_le_int.mpr hxy)) (le_top _)

theorem holds_flip (operation : Operation) (x y : ℤ) :
    (flipOperation operation).holds y x = operation.holds x y := by
  cases operation <;> rfl

theorem holds_negate (operation : Operation) (x y : ℤ) :
    (negateOperation operation).holds x y = !operation.holds x y := by
  cases operation <;> simp [negateOperation, Operation.holds, ← decide_not]

theorem mem_convert {input : ℕ} {inputRange range : Range} {c : RangeConversion}
    (hc : c ∈ convert input inputRange range) : c = ⟨input, range⟩ := by
  unfold convert at hc
  split at hc
  · cases hc
  · exact mem_singleton.mp hc

theorem contains_convertOperands (hf : ExactFold info.fold) {operation : Operation} {left right : ℕ}
    {leftRange rightRange : Range} (hl : leftRange.Contains ρ (ρ left))
    (hr : rightRange.Contains ρ (ρ right)) (hh : operation.holds (ρ left) (ρ right)) :
    ∀ c ∈ convertOperands info operation left right leftRange rightRange,
      c.range.Contains ρ (ρ c.input) := by
  intro c hc
  rcases mem_append.mp hc with hc | hc <;> obtain rfl := mem_convert hc
  · exact contains_intersection hf (contains_constraint hf hr hh) hl
  · rw [← holds_flip] at hh
    exact contains_intersection hf (contains_constraint hf hl hh) hr

theorem known (hf : ExactFold info.fold)
    (hr : ∀ i range, ranges i = some range → range.Contains ρ (ρ i)) {index length : ℕ}
    (hl : ranges length = some lengthRange) :
    Known info ρ ((ranges index).getD unbound) lengthRange (ρ index) (ρ length) where
  fold := hf
  index := by
    cases hi : ranges index with
    | none => exact contains_unbound
    | some range => exact hr index range hi
  length := hr length lengthRange hl

theorem visitBoundsCheck_staticChecks {index length : ℕ} (hl : ranges length = some lengthRange) :
    (visitBoundsCheck info ranges index length).staticChecks =
      staticChecks info ((ranges index).getD unbound) lengthRange := by
  simp only [visitBoundsCheck, hl]
  split_ifs <;> rfl

theorem mem_conversions {index length : ℕ} {c : RangeConversion}
    (hc : c ∈ (visitBoundsCheck info ranges index length).conversions) :
    ∃ lengthRange, ranges length = some lengthRange ∧
      (c ∈ lengthConversions info ((ranges index).getD unbound) lengthRange length ∨
        c = ⟨index, newIndexRange info ((ranges index).getD unbound) lengthRange⟩) := by
  unfold visitBoundsCheck at hc
  dsimp only at hc
  split at hc
  · exact nomatch hc
  next lengthRange hl =>
  refine ⟨lengthRange, hl, ?_⟩
  split at hc
  · exact nomatch hc
  split at hc
  · exact .inl hc
  · exact (mem_append.mp hc).imp_right mem_singleton.mp

theorem contains_conversions (hr : ∀ i range, ranges i = some range → range.Contains ρ (ρ i))
    {index length : ℕ} (hrn : UnroundedCheck info ranges index length) (hn : 0 ≤ ρ index)
    (hlt : ρ index < ρ length) :
    ∀ c ∈ (visitBoundsCheck info ranges index length).conversions, c.range.Contains ρ (ρ c.input) := by
  intro c hc
  obtain ⟨lengthRange, hl, hc⟩ := mem_conversions hc
  have hk : Known info.exact ρ ((ranges index).getD unbound) lengthRange (ρ index) (ρ length) :=
    known (exactFold_exact info) hr hl
  obtain ⟨hcn, hnw⟩ := hrn lengthRange hl
  dsimp only [Unrounded] at hcn hnw
  rcases hc with hc | rfl
  · rw [hcn] at hc
    exact hk.lengthConversions hlt rfl c hc
  · rw [hnw]
    exact hk.newIndexRange hn hlt

/-- **Bounds checks are removed and marked rightly**, if the ends of the ranges are exact where the tests
use them.  **The range conversions contain the value** where the check has passed or the branch is taken,
unless the constants of the new range are rounded. -/
theorem boundsCheck_sound (info : ValueRangeInfo) (ranges : ℕ → Option Range) (ρ : ℕ → ℤ)
    (hranges : ∀ i range, ranges i = some range → range.Contains ρ (ρ i)) :
    (∀ index length, (∀ lengthRange, ranges length = some lengthRange →
        ExactEnds info ρ ((ranges index).getD unbound) lengthRange (ρ length)) →
      (visitBoundsCheck info ranges index length).staticChecks.Correct (ρ index) (ρ length)) ∧
    (∀ index length, UnroundedCheck info ranges index length → 0 ≤ ρ index → ρ index < ρ length →
      ∀ c ∈ (visitBoundsCheck info ranges index length).conversions, c.range.Contains ρ (ρ c.input)) ∧
    ∀ isInteger operation left right onlyTrue onlyFalse,
      (UnroundedOperands info ranges operation left right → operation.holds (ρ left) (ρ right) = true →
        ∀ c ∈ (visitConditionalBranch info ranges isInteger (.relational operation left right) onlyTrue
          onlyFalse).trueBranch, c.range.Contains ρ (ρ c.input)) ∧
      (UnroundedOperands info ranges (negateOperation operation) left right →
        operation.holds (ρ left) (ρ right) = false →
        ∀ c ∈ (visitConditionalBranch info ranges isInteger (.relational operation left right) onlyTrue
          onlyFalse).falseBranch, c.range.Contains ρ (ρ c.input)) := by
  refine ⟨?_, fun index length => contains_conversions hranges, ?_⟩
  · intro index length he
    cases hln : ranges length with
    | none =>
      have hfl : (visitBoundsCheck info ranges index length).staticChecks = .fullCheck := by
        simp only [visitBoundsCheck, hln]
      rw [hfl]
      trivial
    | some lengthRange =>
      rw [visitBoundsCheck_staticChecks hln]
      exact staticChecks_correct (known (exactFold_exact info) hranges hln) (he lengthRange hln)
  · intro isInteger operation left right onlyTrue onlyFalse
    unfold visitConditionalBranch
    dsimp only
    split
    · split
      · next leftRange rightRange hlf hrg =>
        have hl := hranges left leftRange hlf
        have hr := hranges right rightRange hrg
        have hf := exactFold_exact info
        constructor
        · intro hrn hh c hc
          have hrn := hrn leftRange rightRange hlf hrg
          dsimp only [Unrounded] at hrn hc
          split at hc
          · rw [hrn] at hc
            exact contains_convertOperands hf hl hr hh c hc
          · exact nomatch hc
        · intro hrn hh c hc
          have hrn := hrn leftRange rightRange hlf hrg
          dsimp only [Unrounded] at hrn hc
          split at hc
          · have hn : (negateOperation operation).holds (ρ left) (ρ right) = true := by
              rw [holds_negate, hh]
              rfl
            rw [hrn] at hc
            exact contains_convertOperands hf hl hr hn c hc
          · exact nomatch hc
      · exact ⟨nofun, nofun⟩
    · exact ⟨nofun, nofun⟩

/-- The last `a[i]` of `for (i = 0; i < a.length; i++) a[i]`, where `a.length` is `1`: the index has the
range `[0, a.length - 1]`. -/
theorem boundsCheck_sound_loop : ∃ ranges : ℕ → Option Range,
    (visitBoundsCheck ⟨convertToJavaScriptConstant, 4⟩ ranges 0 1).staticChecks = .removed ∧
      StaticChecks.removed.Correct 0 1 := by
  have hr : ∀ (i : ℕ) (range : Range), [⟨.int 0, .subtract (.instruction 1 true) (.int 1)⟩,
      ⟨.int 0, .instruction 1 true⟩][i]? = some range →
      range.Contains (fun i => if i = 1 then 1 else 0) (if i = 1 then 1 else 0) := by
    intro i range hrn
    obtain ⟨hi, rfl⟩ := List.getElem?_eq_some_iff.mp hrn
    rw [show List.length _ = 2 from rfl] at hi
    interval_cases i <;> exact ⟨_, _, rfl, rfl, by decide, by decide⟩
  have hs := (boundsCheck_sound ⟨convertToJavaScriptConstant, 4⟩ _ _ hr).1 0 1 (by
    intro lengthRange hl
    obtain rfl := some.inj hl
    exact ⟨fun _ _ => .inl ⟨rfl, rfl, rfl⟩, fun hn => absurd ⟨rfl, rfl⟩ hn,
      fun hn => absurd ⟨rfl, rfl⟩ hn⟩)
  exact ⟨fun i => [⟨.int 0, .subtract (.instruction 1 true) (.int 1)⟩, ⟨.int 0, .instruction 1 true⟩][i]?,
    rfl, hs⟩

/-- `if (a.length <= 10) a[5]`: in the branch the length has the range `[0, 10]`, and the check of `5`
against it is removed, whatever the length is.  The instruction `3` is the conversion of the length `0`. -/
theorem visitBoundsCheck_after_branch : ∃ (ranges : ℕ → Option Range) (ρ : ℕ → ℤ),
    (∀ i range, ranges i = some range → range.Contains ρ (ρ i)) ∧
      ranges 0 = some ⟨.int 0, .instruction 0 true⟩ ∧
      (visitConditionalBranch ⟨convertToJavaScriptConstant, 4⟩ ranges (fun _ => true)
        (.relational .lessEqual 0 1) true true).trueBranch.head? = some ⟨0, ⟨.int 0, .int 10⟩⟩ ∧
      ranges 3 = some ⟨.int 0, .int 10⟩ ∧ ρ 3 = ρ 0 ∧
      (visitBoundsCheck ⟨convertToJavaScriptConstant, 4⟩ ranges 2 3).staticChecks = .removed ∧
      ρ 2 = 5 ∧ ρ 3 = 3 := by
  refine ⟨fun i => [(⟨.int 0, .instruction 0 true⟩ : Range), ⟨.int 10, .int 10⟩, ⟨.int 5, .int 5⟩,
    ⟨.int 0, .int 10⟩][i]?, fun i => if i = 1 then 10 else if i = 2 then 5 else 3, ?_, rfl, rfl, rfl, rfl,
    rfl, rfl, rfl⟩
  intro i range hr
  obtain ⟨hi, rfl⟩ := List.getElem?_eq_some_iff.mp hr
  rw [show List.length _ = 4 from rfl] at hi
  interval_cases i <;> exact ⟨_, _, rfl, rfl, by decide, by decide⟩

end Sound

end SsaValueRangeAnalyzer

end DartSdk.Compiler.ValueRange
