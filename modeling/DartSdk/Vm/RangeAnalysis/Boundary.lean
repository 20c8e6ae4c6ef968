import Mathlib.Algebra.Group.Int.Defs
import Mathlib.Algebra.Group.Nat.Defs
import Mathlib.Tactic.Common

/-!
# Range boundaries (`flow_graph_range_analysis.h`)

A `Range` has two boundaries; a boundary is a constant, an infinity, or a symbol with an offset:
another definition's value plus a constant.  `LowerBound` and `UpperBound` replace a symbol by
what its own range says about it.

* The model: `RangeBoundary`, `Range`, the flow graph as far as ranges are concerned (`Graph`),
  `lowerBound`, `upperBound`, `constantMinSmi`, `constantMaxSmi`.
* `Below` and `Above`: what a boundary says about a value, when the definitions have given values.
* `Respects`: the values of the definitions are what the graph says about them.
* `Side`: the two ends of a range, for what holds of minima and maxima alike.
* `Side.Admits.bound`: the bounds are sound, **if the definitions they go through hold Smis**: a
  symbol without a range is taken to be a Smi.
-/

namespace DartSdk.Vm.RangeAnalysis

abbrev DefId := ℕ

def kSmiMin : ℤ := -2 ^ 62

def kSmiMax : ℤ := 2 ^ 62 - 1

def kMinInt64 : ℤ := -2 ^ 63

def kMaxInt64 : ℤ := 2 ^ 63 - 1

/-- `Smi::IsValid`. -/
def IsSmi (x : ℤ) : Prop := kSmiMin ≤ x ∧ x ≤ kSmiMax

instance (x : ℤ) : Decidable (IsSmi x) := inferInstanceAs (Decidable (_ ∧ _))

/-- A result that is stored in an `int64_t` without a check. -/
def toInt64 (x : ℤ) : ℤ := x.bmod (2 ^ 64)

theorem isSmi_int64 {x : ℤ} (hx : IsSmi x) : kMinInt64 ≤ x ∧ x ≤ kMaxInt64 := by
  have hm : kMinInt64 ≤ kSmiMin := by decide
  have hmx : kSmiMax ≤ kMaxInt64 := by decide
  exact ⟨Int.le_trans hm hx.1, Int.le_trans hx.2 hmx⟩

theorem toInt64_eq {x : ℤ} (hm : kMinInt64 ≤ x) (hmx : x ≤ kMaxInt64) : toInt64 x = x := by
  rw [kMinInt64] at hm
  rw [kMaxInt64] at hmx
  rw [toInt64, Int.bmod_eq_of_le] <;> omega

def willAddOverflow (a b : ℤ) : Bool := a + b < kMinInt64 || kMaxInt64 < a + b

def willSubOverflow (a b : ℤ) : Bool := a - b < kMinInt64 || kMaxInt64 < a - b

inductive RangeSize
  | smi
  | int32
  | int64
  deriving DecidableEq

def RangeSize.minValue : RangeSize → ℤ
  | .smi => kSmiMin
  | .int32 => -2 ^ 31
  | .int64 => kMinInt64

def RangeSize.maxValue : RangeSize → ℤ
  | .smi => kSmiMax
  | .int32 => 2 ^ 31 - 1
  | .int64 => kMaxInt64

inductive RangeBoundary
  | unknown
  | negativeInfinity
  | positiveInfinity
  | symbol (defn : DefId) (offset : ℤ)
  | constant (value : ℤ)
  deriving DecidableEq

open RangeBoundary

structure Range where
  min : RangeBoundary
  max : RangeBoundary
  deriving DecidableEq

/-- `Token::Kind` of a `BinarySmiOp`, as far as it is looked at. -/
inductive BinaryOp
  | add
  | sub
  | mul
  | other
  deriving DecidableEq

/-- What the analysis looks at in a definition.  A constant is a Smi (`some`) or another object. -/
inductive Instr
  | constant (value : Option ℤ)
  | constraint (value : DefId)
  | binarySmiOp (op : BinaryOp) (left right : DefId)
  | other
  deriving DecidableEq

/-- The flow graph: its definitions, the ranges recorded for them, and which of them are equal
expressions without dependencies (`AllowsCSE`, `Dependencies`, `Equals`). -/
structure Graph where
  instr : DefId → Instr
  range : DefId → Option Range
  equalExpressions : DefId → DefId → Bool

namespace RangeBoundary

def isSymbol : RangeBoundary → Bool
  | .symbol _ _ => true
  | _ => false

def isInfinity : RangeBoundary → Bool
  | .negativeInfinity => true
  | .positiveInfinity => true
  | _ => false

/-- `Clamp`: infinities and constants are brought into the given size, symbols are kept. -/
def clamp (size : RangeSize) : RangeBoundary → RangeBoundary
  | .negativeInfinity => .constant size.minValue
  | .positiveInfinity => .constant size.maxValue
  | .constant c =>
    if c ≤ size.minValue then .constant size.minValue
    else if size.maxValue ≤ c then .constant size.maxValue
    else .constant c
  | b => b

/-- `RangeBoundary::Add`; both arguments are constants or infinities. -/
def add (a b overflow : RangeBoundary) : RangeBoundary :=
  match a, b with
  | .constant x, .constant y => if willAddOverflow x y then overflow else .constant (x + y)
  | _, _ => overflow

def overflowedSmi : RangeBoundary → Bool
  | .constant c => !decide (IsSmi c)
  | b => b.isInfinity

/-- `offset()`, which is 0 for all but symbols. -/
def offset : RangeBoundary → ℤ
  | .symbol _ offset => offset
  | _ => 0

/-- `ConstantValue()`, of a boundary that is known to be a constant. -/
def constantValue : RangeBoundary → ℤ
  | .constant c => c
  | _ => 0

end RangeBoundary

namespace Graph

variable (g : Graph)

/-- `RangeBoundary::FromDefinition`. -/
def fromDefinition (defn : DefId) (offset : ℤ) : RangeBoundary :=
  match g.instr defn with
  | .constant (some value) => .constant (toInt64 (value + offset))
  | _ => .symbol defn offset

/-- `RangeBoundary::LowerBound`.  The fuel bounds the depth of the recursion through the ranges of
symbols; there is no bound of an unknown boundary. -/
def lowerBound : ℕ → RangeBoundary → Option RangeBoundary
  | _, .unknown => none
  | _, .negativeInfinity => some .negativeInfinity
  | _, .positiveInfinity => some .negativeInfinity
  | _, .constant c => some (.constant c)
  | 0, .symbol _ _ => none
  | fuel + 1, .symbol defn offset =>
    let min := match g.range defn with
      | none => some (constant kSmiMin)
      | some r => (lowerBound fuel r.min).map (clamp .smi)
    min.map fun min => min.add (.constant offset) .negativeInfinity

/-- `RangeBoundary::UpperBound`. -/
def upperBound : ℕ → RangeBoundary → Option RangeBoundary
  | _, .unknown => none
  | _, .negativeInfinity => some .positiveInfinity
  | _, .positiveInfinity => some .positiveInfinity
  | _, .constant c => some (.constant c)
  | 0, .symbol _ _ => none
  | fuel + 1, .symbol defn offset =>
    let max := match g.range defn with
      | none => some (constant kSmiMax)
      | some r => (upperBound fuel r.max).map (clamp .smi)
    max.map fun max => max.add (.constant offset) .positiveInfinity

section

variable (fuel : ℕ) (defn : DefId) (offset : ℤ)

/-- `Range::ConstantMinSmi`. -/
def constantMinSmi : Option Range → Option RangeBoundary
  | none => some (.constant kSmiMin)
  | some r => (g.lowerBound fuel r.min).map (clamp .smi)

/-- `Range::ConstantMaxSmi`. -/
def constantMaxSmi : Option Range → Option RangeBoundary
  | none => some (.constant kSmiMax)
  | some r => (g.upperBound fuel r.max).map (clamp .smi)

end

end Graph

section Meaning

/-- What a boundary used as a minimum says about `x`. -/
def Below (v : DefId → ℤ) (x : ℤ) : RangeBoundary → Prop
  | .constant c => c ≤ x
  | .symbol defn offset => v defn + offset ≤ x
  | _ => True

/-- What a boundary used as a maximum says about `x`. -/
def Above (v : DefId → ℤ) (x : ℤ) : RangeBoundary → Prop
  | .constant c => x ≤ c
  | .symbol defn offset => x ≤ v defn + offset
  | _ => True

instance (v : DefId → ℤ) (x : ℤ) (b : RangeBoundary) : Decidable (Below v x b) :=
  match b with
  | .constant c => inferInstanceAs (Decidable (c ≤ x))
  | .symbol defn offset => inferInstanceAs (Decidable (v defn + offset ≤ x))
  | .unknown | .negativeInfinity | .positiveInfinity => inferInstanceAs (Decidable True)

instance (v : DefId → ℤ) (x : ℤ) (b : RangeBoundary) : Decidable (Above v x b) :=
  match b with
  | .constant c => inferInstanceAs (Decidable (x ≤ c))
  | .symbol defn offset => inferInstanceAs (Decidable (x ≤ v defn + offset))
  | .unknown | .negativeInfinity | .positiveInfinity => inferInstanceAs (Decidable True)

/-- The value of a definition lies within a range. -/
def Within (v : DefId → ℤ) (x : ℤ) (r : Range) : Prop :=
  Below v x r.min ∧ Above v x r.max

/-- The definitions of the graph have the values `v`. -/
structure Respects (g : Graph) (v : DefId → ℤ) : Prop where
  range : ∀ {d r}, g.range d = some r → Within v (v d) r
  constant : ∀ {d c}, g.instr d = .constant (some c) → v d = c
  constraint : ∀ {d s}, g.instr d = .constraint s → v d = v s
  add_right : ∀ {d l r c}, g.instr d = .binarySmiOp .add l r → g.instr r = .constant (some c) →
    v d = v l + c
  add_left : ∀ {d l r c}, g.instr d = .binarySmiOp .add l r → g.instr l = .constant (some c) →
    v d = v r + c
  sub : ∀ {d l r c}, g.instr d = .binarySmiOp .sub l r → g.instr r = .constant (some c) →
    v d = v l - c
  equal : ∀ {a b}, g.equalExpressions a b = true → v a = v b

/-- The definitions the analysis goes through from `d`: the inputs of constraints, the operands of
additions and subtractions, and the symbols of ranges. -/
inductive Visits (g : Graph) (d : DefId) : DefId → Prop
  | refl : Visits g d d
  | constraint {x s : DefId} : Visits g d x → g.instr x = .constraint s → Visits g d s
  | left {x l r : DefId} {op : BinaryOp} : Visits g d x → g.instr x = .binarySmiOp op l r →
      Visits g d l
  | right {x l r : DefId} {op : BinaryOp} : Visits g d x → g.instr x = .binarySmiOp op l r →
      Visits g d r
  | min {x s : DefId} {r : Range} {o : ℤ} : Visits g d x → g.range x = some r →
      r.min = .symbol s o → Visits g d s
  | max {x s : DefId} {r : Range} {o : ℤ} : Visits g d x → g.range x = some r →
      r.max = .symbol s o → Visits g d s

variable {d : DefId} {b : RangeBoundary}

theorem Visits.trans {g : Graph} {x y : DefId} (hx : Visits g d x) (hy : Visits g x y) :
    Visits g d y := by
  induction hy with
  | refl => exact hx
  | constraint _ hi ih => exact ih.constraint hi
  | left _ hi ih => exact ih.left hi
  | right _ hi ih => exact ih.right hi
  | min _ hr hs ih => exact ih.min hr hs
  | max _ hr hs ih => exact ih.max hr hs

/-- Every definition the analysis goes through from `d` holds a Smi. -/
def SmisFrom (g : Graph) (v : DefId → ℤ) (d : DefId) : Prop := ∀ x, Visits g d x → IsSmi (v x)

/-- So does every definition it goes through from a boundary. -/
def SmisFromBoundary (g : Graph) (v : DefId → ℤ) : RangeBoundary → Prop
  | .symbol d _ => SmisFrom g v d
  | _ => True

variable {g : Graph} {v : DefId → ℤ} {x : ℤ}

theorem SmisFrom.self (h : SmisFrom g v d) : IsSmi (v d) := h d .refl

theorem SmisFrom.step {s : DefId} (h : SmisFrom g v d) (hs : Visits g d s) : SmisFrom g v s :=
  fun x hx => h x (hs.trans hx)

theorem SmisFromBoundary.of_symbol (h : ∀ s o, b = .symbol s o → SmisFrom g v s) :
    SmisFromBoundary g v b := by
  cases b with
  | symbol s o => exact h s o rfl
  | _ => trivial

theorem RangeSize.minValue_le_maxValue (size : RangeSize) : size.minValue ≤ size.maxValue := by
  cases size <;> decide

theorem RangeBoundary.clamp_constant (size : RangeSize) (c : ℤ) :
    (constant c).clamp size =
      .constant (max size.minValue (min c size.maxValue)) := by
  have := size.minValue_le_maxValue
  rw [clamp]
  split_ifs <;> rw [constant.injEq] <;> omega

end Meaning

inductive Side
  | min
  | max

namespace Side

section

variable (side : Side) (g : Graph) (fuel : ℕ) (v : DefId → ℤ) (x : ℤ) (b : RangeBoundary)

def flip : Side → Side
  | min => max
  | max => min

def infinity : Side → RangeBoundary
  | min => .negativeInfinity
  | max => .positiveInfinity

def limit (size : RangeSize) : Side → ℤ
  | min => size.minValue
  | max => size.maxValue

def boundary (r : Range) : Side → RangeBoundary
  | min => r.min
  | max => r.max

def bound : Side → Option RangeBoundary
  | min => g.lowerBound fuel b
  | max => g.upperBound fuel b

/-- `Range::ConstantMinSmi` and `Range::ConstantMaxSmi`. -/
def constantSmi : Option Range → Option RangeBoundary
  | none => some (.constant (side.limit .smi))
  | some r => (side.bound g fuel (side.boundary r)).map (clamp .smi)

/-- The number `a` is on this side of `x`. -/
def Le : Side → ℤ → ℤ → Prop
  | min, a, x => a ≤ x
  | max, a, x => x ≤ a

def Bounds : Side → Prop
  | min => Below v x b
  | max => Above v x b

/-- What a boundary at this end says about `x`; the definitions it goes through hold Smis. -/
structure Admits : Prop where
  bounds : side.Bounds v x b
  smis : SmisFromBoundary g v b

/-- A constant on this side of `x`, or the infinity. -/
def IsBound : Prop := b = side.infinity ∨ ∃ c, b = .constant c ∧ side.Le c x

end

variable {side : Side} {g : Graph} {fuel : ℕ} {v : DefId → ℤ} {x y a c : ℤ} {d : DefId}
  {b b' : RangeBoundary}

theorem bound_symbol : side.bound g (fuel + 1) (.symbol d a) =
    (side.constantSmi g fuel (g.range d)).map fun b => b.add (.constant a) side.infinity := by
  cases side <;> simp only [bound, Graph.lowerBound, Graph.upperBound] <;> cases g.range d <;> rfl

theorem Le.trans_add (h : side.Le a x) (h' : side.Le (x + c) y) : side.Le (a + c) y := by
  cases side <;> dsimp only [Le] at * <;> omega

theorem limit_le (h : IsSmi x) : side.Le (side.limit .smi) x := by
  cases side
  · exact h.1
  · exact h.2

theorem IsBound.clamp (h : side.IsBound x b) (size : RangeSize)
    (hx : side.Le (side.limit size) x) : ∃ m, b.clamp size = .constant m ∧ side.Le m x := by
  rcases h with rfl | ⟨c, rfl, hc⟩
  · exact ⟨side.limit size, by cases side <;> rfl, hx⟩
  · refine ⟨_, clamp_constant size c, ?_⟩
    cases side <;> dsimp only [Le, limit] at * <;> omega

theorem admits_range (side : Side) (h : Respects g v) (hsm : SmisFrom g v d) {r : Range}
    (hr : g.range d = some r) : side.Admits g v (v d) (side.boundary r) := by
  cases side
  · exact ⟨(h.range hr).1, .of_symbol fun s o hs => hsm.step (.min .refl hr hs)⟩
  · exact ⟨(h.range hr).2, .of_symbol fun s o hs => hsm.step (.max .refl hr hs)⟩

theorem constantSmi_spec (h : Respects g v)
    (hbn : ∀ {x b b'}, side.Admits g v x b → side.bound g fuel b = some b' → side.IsBound x b')
    (hb : side.constantSmi g fuel (g.range d) = some b) (hs : SmisFrom g v d) :
    ∃ m, b = .constant m ∧ side.Le m (v d) := by
  cases hr : g.range d with
  | none =>
    rw [hr] at hb
    cases hb
    exact ⟨_, rfl, limit_le hs.self⟩
  | some r =>
    rw [hr, constantSmi, Option.map_eq_some_iff] at hb
    obtain ⟨_, hb₁, rfl⟩ := hb
    exact (hbn (admits_range side h hs hr) hb₁).clamp .smi (limit_le hs.self)

/-- **`LowerBound` and `UpperBound` are sound** where the symbols hold Smis. -/
theorem Admits.bound (hs : side.Admits g v x b) (h : Respects g v)
    (hb : side.bound g fuel b = some b') : side.IsBound x b' := by
  induction fuel generalizing x b b' with
  | zero =>
    cases side <;> cases b <;> cases hb <;> first | exact .inl rfl | exact .inr ⟨_, rfl, hs.bounds⟩
  | succ fuel ih =>
    cases b with
    | symbol s o =>
      rw [bound_symbol, Option.map_eq_some_iff] at hb
      obtain ⟨_, hsm, rfl⟩ := hb
      obtain ⟨m, rfl, hm⟩ := constantSmi_spec h ih hsm hs.smis
      rw [add]
      split_ifs
      · exact .inl rfl
      · refine .inr ⟨_, rfl, hm.trans_add ?_⟩
        cases side <;> exact hs.bounds
    | _ => cases side <;> cases hb <;> first | exact .inl rfl | exact .inr ⟨_, rfl, hs.bounds⟩

end Side

end DartSdk.Vm.RangeAnalysis
