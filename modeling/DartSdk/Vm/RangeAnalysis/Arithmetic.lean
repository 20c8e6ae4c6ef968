import Mathlib.Algebra.Order.Ring.Abs
import Mathlib.Tactic.Linarith
import DartSdk.Vm.RangeAnalysis.Boundary

/-!
# Ranges of arithmetic operations (`Range::Add`, `Range::Sub`, `Range::Mul`)

The range of an operation is computed from the ranges of its operands, symbolically where a
boundary is a symbol and the other one a constant.

The results are one-sided: the minimum of the result bounds the operation on values above the
minima of the operands, and its maximum bounds the operation on values below the maxima.  The two
pairs of values need not be the same (`Spans`): the generalization of bounds checks applies the
range of one expression to the values of another one that is never smaller.

* `rangeAdd_spec`, `rangeSub_spec`: addition, and subtraction of a value within its range.
* `rangeMul_spec`: multiplication is sound **if no factor is negative**, or if one factor is not
  negative and the same on both sides, or if both are the same.
-/

namespace DartSdk.Vm.RangeAnalysis

open Option RangeBoundary RangeAnalysis.Graph Side

/-- The operations that bounds are made of. -/
inductive ArithOp
  | add
  | sub
  | mul
  deriving DecidableEq

def ArithOp.eval : ArithOp → ℤ → ℤ → ℤ
  | .add, a, b => a + b
  | .sub, a, b => a - b
  | .mul, a, b => a * b

/-- `RangeBoundary::Sub`; both arguments are constants or infinities. -/
def RangeBoundary.sub (a b overflow : RangeBoundary) : RangeBoundary :=
  match a, b with
  | .constant x, .constant y => if willSubOverflow x y then overflow else .constant (x - y)
  | _, _ => overflow

/-- `SymbolicAdd`, where it returns `true`; the symbol of a boundary is never a constant. -/
def RangeBoundary.symbolicAdd : RangeBoundary → RangeBoundary → Option RangeBoundary
  | .symbol s o, .constant c => if willAddOverflow o c then none else some (.symbol s (o + c))
  | .constant c, .symbol s o => if willAddOverflow o c then none else some (.symbol s (o + c))
  | _, _ => none

/-- `SymbolicSub`, where it returns `true`. -/
def RangeBoundary.symbolicSub : RangeBoundary → RangeBoundary → Option RangeBoundary
  | .symbol s o, .constant c => if willSubOverflow o c then none else some (.symbol s (o - c))
  | _, _ => none

/-- `IsMinimumOrBelow` for Smis. -/
def RangeBoundary.isMinimumOrBelow : RangeBoundary → Bool
  | .negativeInfinity => true
  | .constant c => decide (c ≤ kSmiMin)
  | _ => false

/-- `IsMaximumOrAbove` for Smis. -/
def RangeBoundary.isMaximumOrAbove : RangeBoundary → Bool
  | .positiveInfinity => true
  | .constant c => decide (kSmiMax ≤ c)
  | _ => false

/-- `Utils::Abs` of an `int64_t`.  The negation wraps: the smallest one stays as it is. -/
def abs64 (x : ℤ) : ℤ := if x < 0 then toInt64 (-x) else x

/-- The test of `Range::Mul` on the greatest absolute values. -/
def ProductFits (leftMax rightMax : ℤ) : Prop :=
  leftMax ≤ -kSmiMin ∧ rightMax ≤ -kSmiMin ∧ (leftMax = 0 ∨ rightMax ≤ kMaxInt64.tdiv leftMax)

instance (leftMax rightMax : ℤ) : Decidable (ProductFits leftMax rightMax) :=
  inferInstanceAs (Decidable (_ ∧ _))

def Range.clamp (size : RangeSize) (r : Range) : Range := ⟨r.min.clamp size, r.max.clamp size⟩

namespace Graph

variable (g : Graph) (fuel : ℕ)

section

variable (leftMax : RangeBoundary) (leftMin : RangeBoundary) (left right : Range)
  (leftLength : Option DefId)

section

variable (r : Range) (val : ℤ)

/-- `Range::OnlyGreaterThanOrEqualTo`. -/
def onlyGreaterThanOrEqualTo : Option Bool :=
  (g.lowerBound fuel r.min).map fun
    | .constant c => decide (val ≤ c)
    | _ => false

/-- `Range::OnlyLessThanOrEqualTo`. -/
def onlyLessThanOrEqualTo : Option Bool :=
  (g.upperBound fuel r.max).map fun
    | .constant c => decide (c ≤ val)
    | _ => false

/-- `Range::ConstantMin(range).ConstantValue()`. -/
def constantMin : Option ℤ :=
  (g.lowerBound fuel r.min).map fun b => (b.clamp .int64).constantValue

/-- `Range::ConstantMax(range).ConstantValue()`. -/
def constantMax : Option ℤ :=
  (g.upperBound fuel r.max).map fun b => (b.clamp .int64).constantValue

def constantAbsMax : Option ℤ := do
  let absMin := abs64 (← g.constantMin fuel r)
  let absMax := abs64 (← g.constantMax fuel r)
  return max absMin absMax

def constantAbsMin : Option ℤ := do
  let absMin := abs64 (← g.constantMin fuel r)
  let absMax := abs64 (← g.constantMax fuel r)
  return min absMin absMax

end

/-- `result_min` of `Range::Add`, from the minimum used for the left operand. -/
def addMin : Option RangeBoundary :=
  match leftMin.symbolicAdd right.min with
  | some b => some b
  | none => do
    let l ← g.lowerBound fuel left.min
    let r ← g.lowerBound fuel right.min
    return l.add r .negativeInfinity

def addMax : Option RangeBoundary :=
  match leftMax.symbolicAdd right.max with
  | some b => some b
  | none => do
    let r ← g.upperBound fuel right.max
    let l ← g.upperBound fuel left.max
    return r.add l .positiveInfinity

/-- `Range::Add`.  The last argument is the left operand if it is the length of an array. -/
def rangeAdd : Option Range := do
  let min ← g.addMin fuel (leftLength.elim left.min fun d => .symbol d 0) left right
  let max ← g.addMax fuel (leftLength.elim left.max fun d => .symbol d 0) left right
  return ⟨min, max⟩

def subMin : Option RangeBoundary :=
  match leftMin.symbolicSub right.max with
  | some b => some b
  | none => do
    let l ← g.lowerBound fuel left.min
    let r ← g.upperBound fuel right.max
    return l.sub r .negativeInfinity

def subMax : Option RangeBoundary :=
  match leftMax.symbolicSub right.min with
  | some b => some b
  | none => do
    let l ← g.upperBound fuel left.max
    let r ← g.lowerBound fuel right.min
    return l.sub r .positiveInfinity

/-- `Range::Sub`. -/
def rangeSub : Option Range := do
  let min ← g.subMin fuel (leftLength.elim left.min fun d => .symbol d 0) left right
  let max ← g.subMax fuel (leftLength.elim left.max fun d => .symbol d 0) left right
  return ⟨min, max⟩

/-- `OnlyPositiveOrZero` or `OnlyNegativeOrZero`. -/
def sameSign : Option Bool := do
  let leftPositive ← g.onlyGreaterThanOrEqualTo fuel left 0
  let rightPositive ← g.onlyGreaterThanOrEqualTo fuel right 0
  let leftNegative ← g.onlyLessThanOrEqualTo fuel left 0
  let rightNegative ← g.onlyLessThanOrEqualTo fuel right 0
  return (leftPositive && rightPositive) || (leftNegative && rightNegative)

end

/-- `Range::Mul`. -/
def rangeMul (left right : Range) : Option Range := do
  let leftMax ← g.constantAbsMax fuel left
  let rightMax ← g.constantAbsMax fuel right
  let same ← g.sameSign fuel left right
  if ProductFits leftMax rightMax then
    let mulMax := toInt64 (leftMax * rightMax)
    if same then
      let mulMin := toInt64 ((← g.constantAbsMin fuel left) * (← g.constantAbsMin fuel right))
      return ⟨.constant mulMin, .constant mulMax⟩
    else return ⟨.constant (toInt64 (-mulMax)), .constant mulMax⟩
  else if same then return ⟨.constant 0, .positiveInfinity⟩
  else return ⟨.negativeInfinity, .positiveInfinity⟩

/-- `Range::BinaryOp`. -/
def rangeBinaryOp (op : ArithOp) (left right : Range) (leftLength : Option DefId) :
    Option Range :=
  match op with
  | .add => g.rangeAdd fuel left right leftLength
  | .sub => g.rangeSub fuel left right leftLength
  | .mul => g.rangeMul fuel left right

end Graph

section Soundness

variable {side : Side} {g : Graph} {v : DefId → ℤ} {x y x₁ y₁ x₂ y₂ : ℤ} {fuel : ℕ}
  {a b c : RangeBoundary} {l r s : Range}

/-- A boundary of a result: not the infinity of the other end. -/
structure Side.IsEnd (side : Side) (g : Graph) (v : DefId → ℤ) (x : ℤ) (b : RangeBoundary) : Prop
    extends side.Admits g v x b where
  ne : b ≠ side.flip.infinity

/-- The minimum of the range is below `x` and its maximum above `y`. -/
structure Spans (g : Graph) (v : DefId → ℤ) (r : Range) (x y : ℤ) : Prop where
  below : Below v x r.min
  above : Above v y r.max
  smis_min : SmisFromBoundary g v r.min
  smis_max : SmisFromBoundary g v r.max

theorem Spans.min (h : Spans g v r x y) : Side.min.Admits g v x r.min := ⟨h.below, h.smis_min⟩

theorem Spans.max (h : Spans g v r x y) : Side.max.Admits g v y r.max := ⟨h.above, h.smis_max⟩

theorem Spans.of_admits (hm : Side.min.Admits g v x r.min) (hmx : Side.max.Admits g v y r.max) :
    Spans g v r x y := ⟨hm.bounds, hmx.bounds, hm.smis, hmx.smis⟩

theorem isEnd_constant {m : ℤ} (h : side.Le m x) : side.IsEnd g v x (.constant m) := by
  cases side <;> exact ⟨⟨h, trivial⟩, nofun⟩

theorem isEnd_symbol {d : DefId} {o : ℤ} (h : side.Le (v d + o) x) (hs : SmisFrom g v d) :
    side.IsEnd g v x (.symbol d o) := by
  cases side <;> exact ⟨⟨h, hs⟩, nofun⟩

theorem isEnd_infinity (side : Side) (x : ℤ) : side.IsEnd g v x side.infinity := by
  cases side <;> exact ⟨⟨trivial, trivial⟩, nofun⟩

theorem Side.IsEnd.clamp (h : side.IsEnd g v x b) (size : RangeSize)
    (hx : side.Le (side.limit size) x) : side.IsEnd g v x (b.clamp size) := by
  cases b with
  | constant c =>
    obtain ⟨m, hm, hle⟩ := IsBound.clamp (.inr ⟨c, rfl, by cases side <;> exact h.bounds⟩) size hx
    rw [hm]
    exact isEnd_constant hle
  | negativeInfinity | positiveInfinity =>
    cases side <;> first | exact isEnd_constant hx | exact absurd rfl h.ne
  | _ => exact h

theorem lowerBound_constant (g : Graph) (fuel : ℕ) (m : ℤ) :
    g.lowerBound fuel (.constant m) = some (.constant m) := by
  cases fuel <;> rfl

theorem upperBound_constant (g : Graph) (fuel : ℕ) (m : ℤ) :
    g.upperBound fuel (.constant m) = some (.constant m) := by
  cases fuel <;> rfl

theorem le_of_onlyGreaterThanOrEqualTo (hg : Respects g v) (h : Spans g v r x y) {m : ℤ}
    (hm : g.onlyGreaterThanOrEqualTo fuel r m = some true) : m ≤ x := by
  rw [onlyGreaterThanOrEqualTo, map_eq_some_iff] at hm
  obtain ⟨low, hlw, hm⟩ := hm
  rcases h.min.bound hg hlw with rfl | ⟨k, rfl, hk⟩
  · cases hm
  · exact (of_decide_eq_true hm).trans hk

/-- A clamped minimum that is known not to be negative says so of any value, Smi or not: only a
minimum that is not negative is clamped to one. -/
theorem nonneg_of_clamp (hg : Respects g v) (h : Side.min.IsEnd g v x b)
    (hp : g.onlyGreaterThanOrEqualTo fuel ⟨b.clamp .smi, c⟩ 0 = some true) : 0 ≤ x := by
  rw [onlyGreaterThanOrEqualTo, map_eq_some_iff] at hp
  obtain ⟨low, hlw, hp⟩ := hp
  have hmn : ¬0 ≤ kSmiMin := by decide
  cases b with
  | constant m =>
    have hm : m ≤ x := h.bounds
    rw [clamp_constant, lowerBound_constant] at hlw
    cases hlw
    have hc : 0 ≤ max kSmiMin (min m kSmiMax) := of_decide_eq_true hp
    omega
  | symbol d o =>
    rcases h.bound hg hlw with rfl | ⟨k, rfl, hk⟩
    · cases hp
    · exact (of_decide_eq_true hp).trans hk
  | negativeInfinity =>
    simp only [clamp, lowerBound_constant] at hlw
    cases hlw
    exact absurd (of_decide_eq_true hp) hmn
  | positiveInfinity => exact absurd rfl h.ne
  | unknown => cases fuel <;> cases hlw

section AddSub

variable {leftLength : Option DefId}

theorem add_isEnd (ha : side.IsBound x a) (hb : side.IsBound y b) :
    side.IsEnd g v (x + y) (a.add b side.infinity) := by
  rcases ha with rfl | ⟨m, rfl, hm⟩
  · cases side <;> exact isEnd_infinity _ _
  rcases hb with rfl | ⟨n, rfl, hn⟩
  · cases side <;> exact isEnd_infinity _ _
  rw [RangeBoundary.add]
  split_ifs
  · exact isEnd_infinity side _
  · refine isEnd_constant ?_
    cases side <;> exact Int.add_le_add hm hn

theorem sub_isEnd (ha : side.IsBound x a) (hb : side.flip.IsBound y b) :
    side.IsEnd g v (x - y) (a.sub b side.infinity) := by
  rcases ha with rfl | ⟨m, rfl, hm⟩
  · cases side <;> exact isEnd_infinity _ _
  rcases hb with rfl | ⟨n, rfl, hn⟩
  · cases side <;> exact isEnd_infinity _ _
  rw [RangeBoundary.sub]
  split_ifs
  · exact isEnd_infinity side _
  · refine isEnd_constant ?_
    cases side <;> exact Int.sub_le_sub hm hn

theorem symbolicAdd_isEnd (ha : side.Admits g v x a) (hb : side.Admits g v y b)
    (h : a.symbolicAdd b = some c) : side.IsEnd g v (x + y) c := by
  have hx := ha.bounds
  have hy := hb.bounds
  unfold symbolicAdd at h
  split at h
  · cases (ite_none_left_eq_some.mp h).2
    refine isEnd_symbol ?_ ha.smis
    cases side <;> dsimp only [Bounds, Below, Above, Le] at * <;> omega
  · cases (ite_none_left_eq_some.mp h).2
    refine isEnd_symbol ?_ hb.smis
    cases side <;> dsimp only [Bounds, Below, Above, Le] at * <;> omega
  · cases h

theorem symbolicSub_isEnd (ha : side.Admits g v x a) (hb : side.flip.Admits g v y b)
    (h : a.symbolicSub b = some c) : side.IsEnd g v (x - y) c := by
  have hx := ha.bounds
  have hy := hb.bounds
  unfold symbolicSub at h
  split at h
  · cases (ite_none_left_eq_some.mp h).2
    refine isEnd_symbol ?_ ha.smis
    cases side <;> dsimp only [Bounds, Side.flip, Below, Above, Le] at * <;> omega
  · cases h

/-- A boundary is found symbolically, or else from the bounds of the operands. -/
theorem of_symbolic {P : RangeBoundary → Prop} {symbolic p q : Option RangeBoundary}
    {f : RangeBoundary → RangeBoundary → RangeBoundary}
    (h : (match symbolic with
      | some b => some b
      | none => do return f (← p) (← q)) = some c)
    (hs : symbolic = some c → P c) (hf : ∀ {a b}, p = some a → q = some b → P (f a b)) :
    P c := by
  cases symbolic with
  | some b => exact hs h
  | none =>
    simp only [bind_eq_bind, pure_def, bind_eq_some_iff] at h
    obtain ⟨_, hp, _, hq, h⟩ := h
    cases h
    exact hf hp hq

/-- A symbol that the boundary depends on is one of these. -/
def RangeBoundary.Over (P : DefId → Prop) (b : RangeBoundary) : Prop := ∀ s o, b = .symbol s o → P s

def Range.Over (P : DefId → Prop) (r : Range) : Prop := r.min.Over P ∧ r.max.Over P

section Over

variable {P Q : DefId → Prop}

theorem Range.Over.mono (h : r.Over P) (hPQ : ∀ d, P d → Q d) : r.Over Q :=
  ⟨fun s o hs => hPQ s (h.1 s o hs), fun s o hs => hPQ s (h.2 s o hs)⟩

theorem RangeBoundary.Over.clamp (h : b.Over P) (size : RangeSize) : (b.clamp size).Over P := by
  cases b with
  | constant c =>
    rw [clamp_constant]
    exact nofun
  | negativeInfinity | positiveInfinity => exact nofun
  | _ => exact h

theorem over_add (hc : c.Over P) : (a.add b c).Over P := by
  unfold RangeBoundary.add
  split
  · split_ifs
    · exact hc
    · exact nofun
  · exact hc

theorem over_sub (hc : c.Over P) : (a.sub b c).Over P := by
  unfold RangeBoundary.sub
  split
  · split_ifs
    · exact hc
    · exact nofun
  · exact hc

theorem over_symbolicAdd (ha : a.Over P) (hb : b.Over P) (h : a.symbolicAdd b = some c) :
    c.Over P := by
  unfold symbolicAdd at h
  split at h
  · cases (ite_none_left_eq_some.mp h).2
    rintro _ _ ⟨⟩
    exact ha _ _ rfl
  · cases (ite_none_left_eq_some.mp h).2
    rintro _ _ ⟨⟩
    exact hb _ _ rfl
  · cases h

theorem over_symbolicSub (ha : a.Over P) (h : a.symbolicSub b = some c) : c.Over P := by
  unfold symbolicSub at h
  split at h
  · cases (ite_none_left_eq_some.mp h).2
    rintro _ _ ⟨⟩
    exact ha _ _ rfl
  · cases h

/-- **The range of an operation depends on symbols that those of the operands depend on.** -/
theorem over_rangeBinaryOp {op : ArithOp} (hl : l.Over P) (hr : r.Over P)
    (hln : ∀ d ∈ leftLength, P d) (h : g.rangeBinaryOp fuel op l r leftLength = some s) :
    s.Over P := by
  have hlf {b : RangeBoundary} (hb : b.Over P) :
      (leftLength.elim b fun d => .symbol d 0).Over P := by
    cases leftLength with
    | none => exact hb
    | some d =>
      rintro _ _ ⟨⟩
      exact hln d rfl
  cases op with
  | add =>
    simp only [rangeBinaryOp, rangeAdd, bind_eq_bind, pure_def, bind_eq_some_iff] at h
    obtain ⟨min, hm, max, hmx, h⟩ := h
    cases h
    exact ⟨of_symbolic hm (over_symbolicAdd (hlf hl.1) hr.1) fun _ _ => over_add nofun,
      of_symbolic hmx (over_symbolicAdd (hlf hl.2) hr.2) fun _ _ => over_add nofun⟩
  | sub =>
    simp only [rangeBinaryOp, rangeSub, bind_eq_bind, pure_def, bind_eq_some_iff] at h
    obtain ⟨min, hm, max, hmx, h⟩ := h
    cases h
    exact ⟨of_symbolic hm (over_symbolicSub (hlf hl.1)) fun _ _ => over_sub nofun,
      of_symbolic hmx (over_symbolicSub (hlf hl.2)) fun _ _ => over_sub nofun⟩
  | mul =>
    simp only [rangeBinaryOp, rangeMul, bind_eq_bind, pure_def, bind_eq_some_iff] at h
    obtain ⟨_, -, _, -, _, -, h⟩ := h
    split_ifs at h
    · simp only [bind_eq_some_iff] at h
      obtain ⟨_, -, _, -, h⟩ := h
      cases h
      exact ⟨nofun, nofun⟩
    all_goals
      cases h
      exact ⟨nofun, nofun⟩

end Over

/-- What is used for the left operand if it is the length of an array. -/
def IsLength (g : Graph) (v : DefId → ℤ) (x y : ℤ) (leftLength : Option DefId) : Prop :=
  ∀ d, leftLength = some d → v d ≤ x ∧ y ≤ v d ∧ SmisFrom g v d

theorem Spans.withLength (h : Spans g v l x y) (hln : IsLength g v x y leftLength) :
    Spans g v ⟨leftLength.elim l.min fun d => .symbol d 0,
      leftLength.elim l.max fun d => .symbol d 0⟩ x y := by
  cases leftLength with
  | none => exact h
  | some d =>
    obtain ⟨hx, hy, hs⟩ := hln d rfl
    refine ⟨?_, ?_, hs, hs⟩
    · show v d + 0 ≤ x
      omega
    · show y ≤ v d + 0
      omega

variable (hg : Respects g v) (hl : Spans g v l x₁ y₁)

include hg hl

/-- **`Range::Add` is sound.** -/
theorem rangeAdd_spec (hr : Spans g v r x₂ y₂) (hln : IsLength g v x₁ y₁ leftLength)
    (h : g.rangeAdd fuel l r leftLength = some s) :
    Side.min.IsEnd g v (x₁ + x₂) s.min ∧ Side.max.IsEnd g v (y₁ + y₂) s.max := by
  have hs := hl.withLength hln
  simp only [rangeAdd, bind_eq_bind, pure_def, bind_eq_some_iff] at h
  obtain ⟨min, hm, max, hmx, h⟩ := h
  cases h
  constructor
  · exact of_symbolic hm (symbolicAdd_isEnd hs.min hr.min) fun hp hq =>
      add_isEnd (hl.min.bound hg hp) (hr.min.bound hg hq)
  · refine of_symbolic hmx (symbolicAdd_isEnd hs.max hr.max) fun hp hq => ?_
    rw [add_comm]
    exact add_isEnd (hr.max.bound hg hp) (hl.max.bound hg hq)

/-- **`Range::Sub` is sound**, if one value lies within the range of the right operand. -/
theorem rangeSub_spec (hr : Spans g v r x x) (hln : IsLength g v x₁ y₁ leftLength)
    (h : g.rangeSub fuel l r leftLength = some s) :
    Side.min.IsEnd g v (x₁ - x) s.min ∧ Side.max.IsEnd g v (y₁ - x) s.max := by
  have hs := hl.withLength hln
  simp only [rangeSub, bind_eq_bind, pure_def, bind_eq_some_iff] at h
  obtain ⟨min, hm, max, hmx, h⟩ := h
  cases h
  constructor
  · exact of_symbolic hm (symbolicSub_isEnd hs.min hr.max) fun hp hq =>
      sub_isEnd (hl.min.bound hg hp) (hr.max.bound hg hq)
  · exact of_symbolic hmx (symbolicSub_isEnd hs.max hr.min) fun hp hq =>
      sub_isEnd (hl.max.bound hg hp) (hr.min.bound hg hq)

end AddSub

section Mul

variable (hg : Respects g v)

/-- No factor is negative, or one factor is not negative and the same on both sides. -/
def FactorsNonneg (x₁ y₁ x₂ y₂ : ℤ) : Prop :=
  (0 ≤ y₁ ∧ 0 ≤ y₂) ∨ (y₁ = x₁ ∧ 0 ≤ x₁) ∨ (y₂ = x₂ ∧ 0 ≤ x₂)

/-- Multiplication is monotone where no factor is negative, and in one factor where the other one
is not negative. -/
theorem FactorsNonneg.mul_le_mul (h : FactorsNonneg x₁ y₁ x₂ y₂) (h₁ : y₁ ≤ x₁)
    (h₂ : y₂ ≤ x₂) : y₁ * y₂ ≤ x₁ * x₂ := by
  rcases h with ⟨hy₁, hy₂⟩ | ⟨rfl, hx⟩ | ⟨rfl, hx⟩
  · exact Int.mul_le_mul h₁ h₂ hy₂ (hy₁.trans h₁)
  · exact Int.mul_le_mul_of_nonneg_left h₂ hx
  · exact Int.mul_le_mul_of_nonneg_right h₁ hx

variable {lmin lmax rmin rmax p q : ℤ}

theorem absMax_bounds (hm : lmin ≤ x) (hmx : y ≤ lmax) :
    -max |lmin| |lmax| ≤ x ∧ y ≤ max |lmin| |lmax| ∧ 0 ≤ max |lmin| |lmax| := by
  have := neg_abs_le lmin
  have := le_abs_self lmax
  have := abs_nonneg lmin
  omega

/-- Neither product leaves the interval given by the greatest absolute values, if the left factor
is the same on both sides. -/
theorem mul_absMax_of_same (hx : 0 ≤ x) (hxp : x ≤ p) (hx₂ : -q ≤ x₂) (hy₂ : y₂ ≤ q) (hq : 0 ≤ q) :
    -(p * q) ≤ x * x₂ ∧ x * y₂ ≤ p * q := by
  have hpq : x * q ≤ p * q := Int.mul_le_mul_of_nonneg_right hxp hq
  constructor
  · have := Int.mul_le_mul_of_nonneg_left hx₂ hx
    rw [Int.mul_neg] at this
    omega
  · exact (Int.mul_le_mul_of_nonneg_left hy₂ hx).trans hpq

theorem FactorsNonneg.mul_absMax (h : FactorsNonneg x₁ y₁ x₂ y₂) (h₁ : y₁ ≤ x₁) (h₂ : y₂ ≤ x₂)
    (hl : -p ≤ x₁ ∧ y₁ ≤ p ∧ 0 ≤ p) (hr : -q ≤ x₂ ∧ y₂ ≤ q ∧ 0 ≤ q) :
    -(p * q) ≤ x₁ * x₂ ∧ y₁ * y₂ ≤ p * q := by
  obtain ⟨hx₁, hyp, hp⟩ := hl
  obtain ⟨hx₂, hyq, hq⟩ := hr
  rcases h with ⟨hy₁, hy₂⟩ | ⟨rfl, hx⟩ | ⟨rfl, hx⟩
  · have hxx : 0 ≤ x₁ * x₂ := Int.mul_nonneg (hy₁.trans h₁) (hy₂.trans h₂)
    have hpq : 0 ≤ p * q := Int.mul_nonneg hp hq
    exact ⟨by omega, Int.mul_le_mul hyp hyq hy₂ hp⟩
  · exact mul_absMax_of_same hx hyp hx₂ hyq hq
  · rw [mul_comm x₁, mul_comm y₁, mul_comm p]
    exact mul_absMax_of_same hx hyq hx₁ hyp hp

/-- If both minima are not negative, the least absolute values bound the product. -/
theorem mul_absMin_of_nonneg (hl : 0 ≤ lmin) (hr : 0 ≤ rmin) (hlm : lmin ≤ x₁)
    (hrm : rmin ≤ x₂) : min |lmin| |lmax| * min |rmin| |rmax| ≤ x₁ * x₂ := by
  have hp : min |lmin| |lmax| ≤ x₁ := (min_le_left _ _).trans ((abs_of_nonneg hl).trans_le hlm)
  have hq : min |rmin| |rmax| ≤ x₂ := (min_le_left _ _).trans ((abs_of_nonneg hr).trans_le hrm)
  have hq0 : 0 ≤ min |rmin| |rmax| := le_min (abs_nonneg _) (abs_nonneg _)
  exact Int.mul_le_mul hp hq hq0 (hl.trans hlm)

/-- Where both ranges have the same sign, the least absolute values bound the product of any two
values within them. -/
theorem mul_absMin_of_sameSign (hl : lmin ≤ x) (hl' : x ≤ lmax) (hr : rmin ≤ y) (hr' : y ≤ rmax)
    (h : (0 ≤ lmin ∧ 0 ≤ rmin) ∨ (lmax ≤ 0 ∧ rmax ≤ 0)) :
    min |lmin| |lmax| * min |rmin| |rmax| ≤ x * y ∧ 0 ≤ x * y := by
  rcases h with ⟨hlm, hrm⟩ | ⟨hlx, hrmax⟩
  · exact ⟨mul_absMin_of_nonneg hlm hrm hl hr,
      Int.mul_nonneg (hlm.trans hl) (hrm.trans hr)⟩
  have hn : min |-lmax| |-lmin| * min |-rmax| |-rmin| ≤ -x * -y :=
    mul_absMin_of_nonneg (Int.neg_nonneg.mpr hlx) (Int.neg_nonneg.mpr hrmax)
      (Int.neg_le_neg hl') (Int.neg_le_neg hr')
  rw [abs_neg, abs_neg, abs_neg, abs_neg, Int.neg_mul_neg, min_comm, min_comm |rmax|] at hn
  exact ⟨hn, Int.mul_nonneg_of_nonpos_of_nonpos (hl'.trans hlx) (hr'.trans hrmax)⟩

theorem mul_absMax_of_within (hl : lmin ≤ x) (hl' : x ≤ lmax) (hr : rmin ≤ y) (hr' : y ≤ rmax) :
    -(max |lmin| |lmax| * max |rmin| |rmax|) ≤ x * y ∧
      x * y ≤ max |lmin| |lmax| * max |rmin| |rmax| := by
  have hx := abs_le_max_abs_abs hl hl'
  have hy := abs_le_max_abs_abs hr hr'
  have hxy := Int.mul_le_mul hx hy (abs_nonneg y) ((abs_nonneg x).trans hx)
  exact abs_le.mp ((abs_mul x y).trans_le hxy)

/-- If both maxima are not positive, a factor is 0: the least absolute value is 0 as well. -/
theorem FactorsNonneg.mul_absMin_of_nonpos (h : FactorsNonneg x₁ y₁ x₂ y₂) (h₁ : y₁ ≤ x₁)
    (h₂ : y₂ ≤ x₂) (hl : lmax ≤ 0) (hr : rmax ≤ 0) (hlm : y₁ ≤ lmax) (hrm : y₂ ≤ rmax) :
    min |lmin| |lmax| * min |rmin| |rmax| ≤ x₁ * x₂ ∧ 0 ≤ x₁ * x₂ := by
  have hz (m : ℤ) : min |m| |(0 : ℤ)| = 0 := by
    rw [abs_zero]
    exact min_eq_right (abs_nonneg m)
  have hn : 0 ≤ x₁ * x₂ ∧ (lmax = 0 ∨ rmax = 0) := by
    rcases h with ⟨hy₁, hy₂⟩ | ⟨rfl, hx⟩ | ⟨rfl, hx⟩
    · exact ⟨Int.mul_nonneg (hy₁.trans h₁) (hy₂.trans h₂), .inl (by omega)⟩
    · obtain rfl : y₁ = 0 := by omega
      exact ⟨by rw [zero_mul], .inl (by omega)⟩
    · obtain rfl : y₂ = 0 := by omega
      exact ⟨by rw [mul_zero], .inr (by omega)⟩
  obtain ⟨hxx, rfl | rfl⟩ := hn
  · rw [hz, zero_mul]
    exact ⟨hxx, hxx⟩
  · rw [hz, mul_zero]
    exact ⟨hxx, hxx⟩

variable {m : ℤ}

theorem constantMin_nonneg (hm : g.constantMin fuel l = some m)
    (h : g.onlyGreaterThanOrEqualTo fuel l 0 = some true) : 0 ≤ m := by
  rw [onlyGreaterThanOrEqualTo, map_eq_some_iff] at h
  obtain ⟨low, hlw, h⟩ := h
  rw [constantMin, hlw] at hm
  cases hm
  cases low with
  | constant c =>
    have hc : 0 ≤ c := of_decide_eq_true h
    simp only [clamp_constant]
    exact le_max_of_le_right (le_min hc (by decide))
  | _ => cases h

theorem constantMax_nonpos (hm : g.constantMax fuel l = some m)
    (h : g.onlyLessThanOrEqualTo fuel l 0 = some true) : m ≤ 0 := by
  rw [onlyLessThanOrEqualTo, map_eq_some_iff] at h
  obtain ⟨up, hup, h⟩ := h
  rw [constantMax, hup] at hm
  cases hm
  cases up with
  | constant c =>
    have hc : c ≤ 0 := of_decide_eq_true h
    simp only [clamp_constant]
    exact max_le (by decide) ((min_le_left c _).trans hc)
  | _ => cases h

include hg in
theorem constantMin_le (h : Spans g v l x y) (hx : kMinInt64 ≤ x)
    (hm : g.constantMin fuel l = some m) : m ≤ x := by
  rw [constantMin, map_eq_some_iff] at hm
  obtain ⟨low, hlw, rfl⟩ := hm
  obtain ⟨m, hm, hle⟩ := (h.min.bound hg hlw).clamp .int64 hx
  rw [hm]
  exact hle

include hg in
theorem le_constantMax (h : Spans g v l x y) (hy : y ≤ kMaxInt64)
    (hm : g.constantMax fuel l = some m) : y ≤ m := by
  rw [constantMax, map_eq_some_iff] at hm
  obtain ⟨up, hup, rfl⟩ := hm
  obtain ⟨m, hm, hle⟩ := (h.max.bound hg hup).clamp .int64 hy
  rw [hm]
  exact hle

theorem abs64_eq (hm : kMinInt64 < m) : abs64 m = |m| := by
  rw [kMinInt64] at hm
  rw [abs64]
  split_ifs with hn
  · rw [toInt64_eq, abs_of_neg hn]
    · rw [kMinInt64]
      omega
    · rw [kMaxInt64]
      omega
  · exact (abs_of_nonneg (Int.not_lt.mp hn)).symm

/-- No bound of the range is the smallest `int64_t`, which has no absolute value. -/
def HasAbs (g : Graph) (fuel : ℕ) (r : Range) : Prop :=
  g.constantMin fuel r ≠ some kMinInt64 ∧ g.constantMax fuel r ≠ some kMinInt64

theorem kMinInt64_le_constantValue (b : RangeBoundary) :
    kMinInt64 ≤ (b.clamp .int64).constantValue := by
  cases b with
  | constant c =>
    rw [clamp_constant]
    exact le_max_left _ _
  | symbol => exact (by decide : kMinInt64 ≤ 0)
  | _ => decide

theorem constantAbs_eq (hab : HasAbs g fuel l) (h : g.constantAbsMax fuel l = some m) :
    ∃ lmin lmax, g.constantMin fuel l = some lmin ∧ g.constantMax fuel l = some lmax ∧
      m = max |lmin| |lmax| ∧ g.constantAbsMin fuel l = some (min |lmin| |lmax|) := by
  simp only [constantAbsMax, bind_eq_bind, pure_def, bind_eq_some_iff] at h
  obtain ⟨lmin, hm, lmax, hmx, h⟩ := h
  have ha {b : RangeBoundary} (hne : (b.clamp .int64).constantValue ≠ kMinInt64) :
      abs64 (b.clamp .int64).constantValue = |(b.clamp .int64).constantValue| :=
    abs64_eq (lt_of_le_of_ne (kMinInt64_le_constantValue b) hne.symm)
  obtain ⟨bmin, -, rfl⟩ := map_eq_some_iff.mp hm
  obtain ⟨bmax, -, rfl⟩ := map_eq_some_iff.mp hmx
  have hm' := ha fun heq => hab.1 (heq ▸ hm)
  have hmx' := ha fun heq => hab.2 (heq ▸ hmx)
  refine ⟨_, _, hm, hmx, ?_, ?_⟩
  · rw [← some.inj h, hm', hmx']
  · simp [constantAbsMin, hm, hmx, hm', hmx']

/-- Where the test passes, no product of absolute values overflows. -/
theorem ProductFits.toInt64 (h : ProductFits p q) {a b : ℤ} (ha : 0 ≤ a) (hap : a ≤ p)
    (hb : 0 ≤ b) (hbq : b ≤ q) :
    toInt64 (a * b) = a * b ∧ toInt64 (-(a * b)) = -(a * b) := by
  have hp := ha.trans hap
  have hm : p * q ≤ kMaxInt64 := by
    rcases h.2.2 with rfl | hq'
    · rw [zero_mul]
      decide
    rcases hp.eq_or_lt with rfl | hp
    · rw [zero_mul]
      decide
    rw [Int.tdiv_eq_ediv_of_nonneg (by decide)] at hq'
    rw [mul_comm]
    exact (Int.le_ediv_iff_mul_le hp).mp hq'
  have hab : a * b ≤ p * q := Int.mul_le_mul hap hbq hb hp
  have hn : 0 ≤ a * b := Int.mul_nonneg ha hb
  have hmn : kMinInt64 ≤ -kMaxInt64 := by decide
  have hz : kMinInt64 ≤ 0 ∧ 0 ≤ kMaxInt64 := by decide
  exact ⟨toInt64_eq (by omega) (by omega), toInt64_eq (by omega) (by omega)⟩

theorem sameSign_cases (h : g.sameSign fuel l r = some true) :
    (g.onlyGreaterThanOrEqualTo fuel l 0 = some true ∧
      g.onlyGreaterThanOrEqualTo fuel r 0 = some true) ∨
    (g.onlyLessThanOrEqualTo fuel l 0 = some true ∧
      g.onlyLessThanOrEqualTo fuel r 0 = some true) := by
  simp only [sameSign, bind_eq_bind, pure_def, bind_eq_some_iff,
    some.injEq, Bool.or_eq_true, Bool.and_eq_true] at h
  obtain ⟨a, ha, b, hb, c, hc, d, hd, ⟨rfl, rfl⟩ | ⟨rfl, rfl⟩⟩ := h
  · exact .inl ⟨ha, hb⟩
  · exact .inr ⟨hc, hd⟩

/-- What `Range::Mul` computes from the greatest and, if both factors have the same sign, the least
absolute values. -/
theorem rangeMul_bounds (hl : HasAbs g fuel l) (hr : HasAbs g fuel r)
    (h : g.rangeMul fuel l r = some s) :
    ∃ lmin lmax rmin rmax, g.constantMin fuel l = some lmin ∧ g.constantMax fuel l = some lmax ∧
      g.constantMin fuel r = some rmin ∧ g.constantMax fuel r = some rmax ∧
      ∀ x y, -(max |lmin| |lmax| * max |rmin| |rmax|) ≤ x →
        y ≤ max |lmin| |lmax| * max |rmin| |rmax| →
        ((0 ≤ lmin ∧ 0 ≤ rmin) ∨ (lmax ≤ 0 ∧ rmax ≤ 0) →
          min |lmin| |lmax| * min |rmin| |rmax| ≤ x ∧ 0 ≤ x) →
        Side.min.IsEnd g v x s.min ∧ Side.max.IsEnd g v y s.max := by
  simp only [rangeMul, bind_eq_bind, pure_def, bind_eq_some_iff] at h
  obtain ⟨p, hp, q, hq, same, hsm, h⟩ := h
  obtain ⟨lmin, lmax, hlm, hlx, rfl, hlb⟩ := constantAbs_eq hl hp
  obtain ⟨rmin, rmax, hrm, hrx, rfl, hrb⟩ := constantAbs_eq hr hq
  refine ⟨lmin, lmax, rmin, rmax, hlm, hlx, hrm, hrx, fun x y hx hy hsg => ?_⟩
  have hsg' : same → min |lmin| |lmax| * min |rmin| |rmax| ≤ x ∧ 0 ≤ x := by
    rintro rfl
    rcases sameSign_cases hsm with ⟨hps, hpr⟩ | ⟨hn, hnegr⟩
    · exact hsg (.inl ⟨constantMin_nonneg hlm hps, constantMin_nonneg hrm hpr⟩)
    · exact hsg (.inr ⟨constantMax_nonpos hlx hn, constantMax_nonpos hrx hnegr⟩)
  have hmn0 (a b : ℤ) : 0 ≤ min |a| |b| := le_min (abs_nonneg a) (abs_nonneg b)
  have hm0 (a b : ℤ) : 0 ≤ max |a| |b| := (hmn0 a b).trans min_le_max
  split_ifs at h with hf hs hs
  · rw [(hf.toInt64 (hm0 _ _) le_rfl (hm0 _ _) le_rfl).1, hlb, hrb, bind_some, bind_some,
      (hf.toInt64 (hmn0 _ _) min_le_max (hmn0 _ _) min_le_max).1] at h
    cases h
    exact ⟨isEnd_constant (hsg' hs).1, isEnd_constant hy⟩
  · obtain ⟨hml, hng⟩ := hf.toInt64 (hm0 _ _) le_rfl (hm0 _ _) le_rfl
    rw [hml, hng] at h
    cases h
    exact ⟨isEnd_constant hx, isEnd_constant hy⟩
  · cases h
    exact ⟨isEnd_constant (hsg' hs).2, isEnd_infinity .max y⟩
  · cases h
    exact ⟨isEnd_infinity .min x, isEnd_infinity .max y⟩

include hg in
/-- **`Range::Mul` is sound** on values that are not negative where it matters, and on one pair of
values. -/
theorem rangeMul_spec (hl : Spans g v l x₁ y₁) (hr : Spans g v r x₂ y₂) (hx₁ : IsSmi x₁)
    (hx₂ : IsSmi x₂) (h₁ : y₁ ≤ x₁) (h₂ : y₂ ≤ x₂)
    (hf : FactorsNonneg x₁ y₁ x₂ y₂ ∨ (y₁ = x₁ ∧ y₂ = x₂))
    (hlb : HasAbs g fuel l) (hrb : HasAbs g fuel r) (h : g.rangeMul fuel l r = some s) :
    Side.min.IsEnd g v (x₁ * x₂) s.min ∧ Side.max.IsEnd g v (y₁ * y₂) s.max := by
  obtain ⟨lmin, lmax, rmin, rmax, hlm, hlx, hrm, hrx, hb⟩ := rangeMul_bounds hlb hrb h
  have hlm' := constantMin_le hg hl (isSmi_int64 hx₁).1 hlm
  have hrm' := constantMin_le hg hr (isSmi_int64 hx₂).1 hrm
  have hlx' := le_constantMax hg hl (h₁.trans (isSmi_int64 hx₁).2) hlx
  have hrx' := le_constantMax hg hr (h₂.trans (isSmi_int64 hx₂).2) hrx
  rcases hf with hf | ⟨heq₁, heq₂⟩
  · have ha := hf.mul_absMax h₁ h₂ (absMax_bounds hlm' hlx') (absMax_bounds hrm' hrx')
    refine hb _ _ ha.1 ha.2 ?_
    rintro (⟨hl0, hr0⟩ | ⟨hl0, hr0⟩)
    · exact ⟨mul_absMin_of_nonneg hl0 hr0 hlm' hrm',
        Int.mul_nonneg (hl0.trans hlm') (hr0.trans hrm')⟩
    · exact hf.mul_absMin_of_nonpos h₁ h₂ hl0 hr0 hlx' hrx'
  · rw [heq₁] at hlx' ⊢
    rw [heq₂] at hrx' ⊢
    have ha := mul_absMax_of_within hlm' hlx' hrm' hrx'
    exact hb _ _ ha.1 ha.2 (mul_absMin_of_sameSign hlm' hlx' hrm' hrx')

end Mul

end Soundness

end DartSdk.Vm.RangeAnalysis
