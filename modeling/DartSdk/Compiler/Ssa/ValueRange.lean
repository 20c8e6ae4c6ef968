import Mathlib.Algebra.Group.Int.Defs

/-!
# Symbolic values and ranges of the value range analyzer

`Value` and `Range` of `value_range_analyzer.dart`.  Instructions are numbers.  A `MarkerValue` is
compared by identity, and one run of the recognizer makes one marker of each sign, so its sign is
enough.  The operators of a value call those of other values; they are tied at a depth, and below it they
give `Unknown`, so what is said of every depth is said of the operators of the source, which return: for
given values some depth is enough (`operators_settle`).
-/

namespace DartSdk.Compiler.ValueRange

inductive Value
  | marker (positive : Bool)
  | int (value : ℤ)
  | maxInt
  | minInt
  | unknown
  /-- An `InstructionValue`, which is a `PositiveValue` if `positive`. -/
  | instruction (instruction : ℕ) (positive : Bool)
  | add (left right : Value)
  | subtract (left right : Value)
  | negate (value : Value)
  deriving DecidableEq, Repr

/-- `convertToJavaScriptConstant` of an integer: the integer value of the double next to it, which is even
if there are two, or none if that double is infinite. -/
def convertToJavaScriptConstant (value : ℤ) : Option ℤ :=
  let unit : ℤ := 2 ^ (value.natAbs.log2 - 52)
  let below := value / unit
  let rest := 2 * (value % unit)
  let floorValue := (if rest < unit ∨ rest = unit ∧ below % 2 = 0 then below else below + 1) * unit
  if floorValue.natAbs.log2 < 1024 then some floorValue else none

structure ValueRangeInfo where
  /-- The constant system: what an integer becomes as a constant, if that is an integer. -/
  fold : ℤ → Option ℤ
  depth : ℕ

namespace Value

mutual

def isNegative : Value → Bool
  | int value => value < 0
  | minInt => true
  | add left right => left.isNegative && right.isNegative
  | subtract left right => left.isNegative && right.isPositive
  | negate value => value.isPositive
  | _ => false

def isPositive : Value → Bool
  | int value => value ≥ 0
  | maxInt => true
  | instruction _ positive => positive
  | add left right => left.isPositive && right.isPositive
  | subtract left right => left.isPositive && right.isNegative
  | negate value => value.isNegative
  | _ => false

end

def isZero : Value → Bool
  | int value => value == 0
  | _ => false

def isIntValue : Value → Bool
  | int _ => true
  | _ => false

def isMarkerValue : Value → Bool
  | marker _ => true
  | _ => false

/-- `value != const UnknownValue() && value is! BinaryOperationValue` -/
def isSimple : Value → Bool
  | unknown | add _ _ | subtract _ _ => false
  | _ => true

/-- `operator ==` -/
def equals : Value → Value → Bool
  | marker positive, marker positive' => positive == positive'
  | int value, int value' => value == value'
  | maxInt, maxInt => true
  | minInt, minInt => true
  | unknown, unknown => true
  | instruction i _, instruction i' _ => i == i'
  | add left right, add left' right' =>
    left.equals left' && right.equals right' || left.equals right' && right.equals left'
  | subtract left right, subtract left' right' => left.equals left' && right.equals right'
  | negate value, negate value' => value.equals value'
  | _, _ => false

end Value

/-- The arithmetic operators of values, as the operators of values call them. -/
structure Operators where
  add : Value → Value → Value
  sub : Value → Value → Value
  neg : Value → Value

namespace Operators

variable (fold : ℤ → Option ℤ) (o : Operators)

variable (this other : Value)

def foldInt (value : ℤ) : Value :=
  match fold value with
  | some constant => .int constant
  | none => .unknown

/-- `operator +` -/
def plus : Value :=
  match this with
  | .marker positive =>
    if other.isPositive && positive then .maxInt
    else if other.isNegative && !positive then .minInt
    else if other.isIntValue then this
    else .unknown
  | .int value =>
    if other.isZero then this
    else
      match other with
      | .int value' => foldInt fold (value + value')
      | _ => o.add other this
  | .maxInt => .maxInt
  | .minInt => .minInt
  | .unknown => .unknown
  | .instruction _ _ =>
    if other.isZero then this
    else
      match other with
      | .int value => if value < 0 then .subtract this (.int (-value)) else .add this other
      | .instruction _ _ => .add this other
      | _ => o.add other this
  | .add left right =>
    if other.isZero then this
    else if (o.add left other).isSimple then o.add (o.add left other) right
    else if (o.add right other).isSimple then o.add left (o.add right other)
    else .unknown
  | .subtract left right =>
    if other.isZero then this
    else if (o.add left other).isSimple then o.sub (o.add left other) right
    else if (o.sub other right).isSimple then o.add left (o.sub other right)
    else .unknown
  | .negate value =>
    if other.isZero then this
    else if other.equals value then .int 0
    else
      match other with
      | .negate value' => o.sub this value'
      | .int value' => if value' < 0 then .subtract this (.int (-value')) else .subtract other value
      | .instruction _ _ => .subtract other value
      | _ => o.sub other value

/-- The binary `operator -` -/
def minus : Value :=
  match this with
  | .marker positive =>
    if other.isPositive && !positive then .minInt
    else if other.isNegative && positive then .maxInt
    else if other.isIntValue then this
    else .unknown
  | .int value =>
    if other.isZero then this
    else
      match other with
      | .int value' => foldInt fold (value - value')
      | _ => o.add (o.neg other) this
  | .maxInt => .maxInt
  | .minInt => .minInt
  | .unknown => .unknown
  | .instruction _ _ =>
    if other.isZero then this
    else if this.equals other then .int 0
    else
      match other with
      | .int value => if value < 0 then .add this (.int (-value)) else .subtract this other
      | .instruction _ _ => .subtract this other
      | _ => o.add (o.neg other) this
  | .add left right =>
    if other.isZero then this
    else if (o.sub left other).isSimple then o.add (o.sub left other) right
    else if (o.sub right other).isSimple then o.add left (o.sub right other)
    else .unknown
  | .subtract left right =>
    if other.isZero then this
    else if (o.sub left other).isSimple then o.sub (o.sub left other) right
    else if (o.add right other).isSimple then o.sub left (o.add right other)
    else .unknown
  | .negate value =>
    if other.isZero then this
    else
      match other with
      | .int value' => if value' < 0 then .subtract (.int (-value')) value else .subtract this other
      | .instruction _ _ => .subtract this other
      | .negate value' => o.add this value'
      | _ => o.sub (o.neg other) value

/-- The unary `operator -`.  Folding the negation of an integer constant that is not zero gives an
integer constant. -/
def negative (this : Value) : Value :=
  match this with
  | .marker _ => .unknown
  | .int value => .int (-value)
  | .maxInt => .minInt
  | .minInt => .maxInt
  | .unknown => .unknown
  | .instruction _ _ => .negate this
  | .add left right => o.sub (o.neg left) right
  | .subtract left right => o.sub right left
  | .negate value => value

def tie : ℕ → Operators
  | 0 => ⟨fun _ _ => .unknown, fun _ _ => .unknown, fun _ => .unknown⟩
  | depth + 1 => ⟨plus fold (tie depth), minus fold (tie depth), negative (tie depth)⟩

/-- `Value.min` -/
def valueMin : Value :=
  if this.equals other then this
  else if other = .minInt then other
  else if other = .maxInt then this
  else if (o.sub this other).isPositive then other
  else if (o.sub this other).isNegative then this
  else .unknown

/-- `Value.max` -/
def valueMax : Value :=
  if this.equals other then this
  else if other = .minInt then this
  else if other = .maxInt then other
  else if (o.sub this other).isPositive then this
  else if (o.sub this other).isNegative then other
  else .unknown

/-- `min` of a value that is not an `IntValue`. -/
def symbolicMin : Value :=
  match this with
  | .maxInt => other
  | .minInt => .minInt
  | .unknown => .unknown
  | _ => valueMin o this other

def symbolicMax : Value :=
  match this with
  | .maxInt => .maxInt
  | .minInt => other
  | .unknown => .unknown
  | _ => valueMax o this other

def min : Value :=
  match this with
  | .int value =>
    match other with
    | .int value' => if value < value' then this else other
    | _ => symbolicMin o other this
  | _ => symbolicMin o this other

def max : Value :=
  match this with
  | .int value =>
    match other with
    | .int value' => if value < value' then other else this
    | _ => symbolicMax o other this
  | _ => symbolicMax o this other

end Operators

namespace ValueRangeInfo

variable (info : ValueRangeInfo)

def operators : Operators := Operators.tie info.fold info.depth

def intZero : Value := .int 0

def intOne : Value := .int 1

end ValueRangeInfo

structure Range where
  lower : Value
  upper : Value
  deriving DecidableEq, Repr

namespace Range

def unbound : Range := ⟨.minInt, .maxInt⟩

def normalize (low up : Value) : Range where
  lower := if low = .unknown then .minInt else low
  upper := if up = .unknown then .maxInt else up

def marker : Range := ⟨.marker false, .marker true⟩

variable (info : ValueRangeInfo) (this other : Range)

def union : Range :=
  normalize (info.operators.min this.lower other.lower) (info.operators.max this.upper other.upper)

/-- One of the two ends of an intersection, where `value` is their `max` or `min`. -/
def pick (value mine others : Value) : Value :=
  if value = .unknown then
    if mine.isIntValue then mine else if others.isIntValue then others else mine
  else value

def intersection : Range :=
  normalize (pick (info.operators.max this.lower other.lower) this.lower other.lower)
    (pick (info.operators.min this.upper other.upper) this.upper other.upper)

def add : Range :=
  normalize (info.operators.add this.lower other.lower) (info.operators.add this.upper other.upper)

def sub : Range :=
  normalize (info.operators.sub this.lower other.upper) (info.operators.sub this.upper other.lower)

/-- `operator ==` -/
def equals : Bool := other.lower.equals this.lower && other.upper.equals this.upper

/-- `operator <` -/
def less : Bool :=
  !this.upper.equals other.lower && (info.operators.min this.upper other.lower).equals this.upper

def isNegative : Bool := this.upper.isNegative

def isPositive : Bool := this.lower.isPositive

end Range

end DartSdk.Compiler.ValueRange
