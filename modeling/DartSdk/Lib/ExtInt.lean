import Mathlib.Algebra.Order.Ring.Int

/-!
# The integers with two infinities

Bounds of integers: a bound is an integer or one of the infinities.  The sum of the two infinities has
no meaning; `Compatible` says that two bounds are not opposite infinities, and the laws of addition that
subtraction needs hold for compatible bounds.

* the bounds with `+` are a commutative semigroup, whatever the value of the meaningless sum;
* `neg_add`: negation goes through a meaningful sum;
* `add_le_int`, `int_le_add`, `sub_le_int`, `int_le_sub`: bounds of a sum and of a difference.
-/

namespace DartSdk

inductive ExtInt
  | bot
  | int (value : ℤ)
  | top
  deriving DecidableEq, Repr

namespace ExtInt

def add : ExtInt → ExtInt → ExtInt
  | bot, _ => bot
  | _, bot => bot
  | top, _ => top
  | _, top => top
  | int a, int b => int (a + b)

def neg : ExtInt → ExtInt
  | bot => top
  | int a => int (-a)
  | top => bot

instance : Add ExtInt := ⟨add⟩

instance : Neg ExtInt := ⟨neg⟩

def le : ExtInt → ExtInt → Bool
  | bot, _ => true
  | _, top => true
  | int a, int b => a ≤ b
  | _, _ => false

instance : LE ExtInt := ⟨fun a b => le a b = true⟩

instance (a b : ExtInt) : Decidable (a ≤ b) := inferInstanceAs (Decidable (le a b = true))

/-- The two are not opposite infinities. -/
def Compatible : ExtInt → ExtInt → Prop
  | bot, top => False
  | top, bot => False
  | _, _ => True

instance (a b : ExtInt) : Decidable (Compatible a b) := by
  unfold Compatible
  split <;> infer_instance

@[simp] theorem int_add_int (a b : ℤ) : int a + int b = int (a + b) := rfl
@[simp] theorem bot_add (a : ExtInt) : bot + a = bot := rfl
@[simp] theorem add_bot (a : ExtInt) : a + bot = bot := by cases a <;> rfl
@[simp] theorem int_add_top (a : ℤ) : int a + top = top := rfl
@[simp] theorem top_add_int (a : ℤ) : top + int a = top := rfl
@[simp] theorem top_add_top : top + top = top := rfl
@[simp] theorem neg_int (a : ℤ) : -int a = int (-a) := rfl
@[simp] theorem neg_bot : -bot = top := rfl
@[simp] theorem neg_top : -top = bot := rfl
@[simp] theorem bot_le (a : ExtInt) : bot ≤ a := rfl
@[simp] theorem le_top (a : ExtInt) : a ≤ top := by cases a <;> rfl
@[simp] theorem int_le_int {a b : ℤ} : int a ≤ int b ↔ a ≤ b := decide_eq_true_iff
@[simp] theorem not_int_le_bot {a : ℤ} : ¬ int a ≤ bot := Bool.false_ne_true
@[simp] theorem not_top_le_bot : ¬ top ≤ bot := Bool.false_ne_true
@[simp] theorem not_top_le_int {a : ℤ} : ¬ top ≤ int a := Bool.false_ne_true
@[simp] theorem compatible_int_left (a : ℤ) (b : ExtInt) : Compatible (int a) b := by cases b <;> trivial
@[simp] theorem compatible_int_right (a : ExtInt) (b : ℤ) : Compatible a (int b) := by cases a <;> trivial
@[simp] theorem compatible_bot_bot : Compatible bot bot := trivial
@[simp] theorem compatible_top_top : Compatible top top := trivial
@[simp] theorem not_compatible_bot_top : ¬ Compatible bot top := id
@[simp] theorem not_compatible_top_bot : ¬ Compatible top bot := id

instance : AddCommSemigroup ExtInt where
  add_assoc a b c := by cases a <;> cases b <;> cases c <;> simp [Int.add_assoc]
  add_comm a b := by cases a <;> cases b <;> simp [Int.add_comm]

@[simp] theorem add_int_zero (a : ExtInt) : a + int 0 = a := by cases a <;> simp

instance : PartialOrder ExtInt where
  le_refl a := by cases a <;> simp
  le_trans a b c := by cases a <;> cases b <;> cases c <;> simp; exact Int.le_trans
  le_antisymm a b := by cases a <;> cases b <;> simp; exact Int.le_antisymm

theorem neg_neg (a : ExtInt) : - -a = a := by cases a <;> simp

theorem compatible_comm {a b : ExtInt} (h : Compatible a b) : Compatible b a := by
  cases a <;> cases b <;> simp_all

theorem compatible_neg {a b : ExtInt} (h : Compatible a b) : Compatible (-a) (-b) := by
  cases a <;> cases b <;> simp_all

theorem neg_add {a b : ExtInt} (h : Compatible a b) : -(a + b) = -a + -b := by
  cases a <;> cases b <;> simp_all
  omega

theorem add_neg_self (a : ℤ) : int a + -int a = int 0 := by
  rw [neg_int, int_add_int, Int.add_right_neg]

section Bounds

variable {lo hi lo' hi' : ExtInt} {x y : ℤ}

theorem add_le_int (h : lo ≤ int x) (h' : lo' ≤ int y) : lo + lo' ≤ int (x + y) := by
  cases lo <;> cases lo' <;> simp_all
  omega

theorem int_le_add (h : int x ≤ hi) (h' : int y ≤ hi') : int (x + y) ≤ hi + hi' := by
  cases hi <;> cases hi' <;> simp_all
  omega

theorem neg_le_int (h : int x ≤ hi) : -hi ≤ int (-x) := by
  cases hi <;> simp_all

theorem int_le_neg (h : lo ≤ int x) : int (-x) ≤ -lo := by
  cases lo <;> simp_all

theorem sub_le_int (h : lo ≤ int x) (h' : int y ≤ hi') : lo + -hi' ≤ int (x - y) := by
  rw [Int.sub_eq_add_neg]
  exact add_le_int h (neg_le_int h')

theorem int_le_sub (h : int x ≤ hi) (h' : lo' ≤ int y) : int (x - y) ≤ hi + -lo' := by
  rw [Int.sub_eq_add_neg]
  exact int_le_add h (int_le_neg h')

theorem compatible_of_le (h : lo ≤ int x) (h' : lo' ≤ int y) : Compatible lo lo' := by
  cases lo <;> cases lo' <;> simp_all

theorem compatible_of_ge (h : int x ≤ hi) (h' : int y ≤ hi') : Compatible hi hi' := by
  cases hi <;> cases hi' <;> simp_all

end Bounds

end ExtInt

end DartSdk
