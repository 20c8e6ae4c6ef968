import DartSdk.Compiler.Ssa.ValueRange
import DartSdk.Lib.ExtInt

/-!
# What symbolic values stand for

A symbolic value stands for a bound: an integer or an infinity, once the instructions it names have
values.  A marker, `Unknown` and a sum of opposite infinities stand for nothing.

* `tie_sound`: the operators give `Unknown` or what the sum, the difference or the negation stands for;
* `extremes_cases`: a minimum or a maximum is `Unknown` or one of the two, and it is the right one;
* `Range.contains_intersection`: an intersection contains what both ranges contain.
-/

namespace DartSdk.Compiler.ValueRange

open ExtInt Option Value

/-- What the sum of two bounds is, if it has a meaning. -/
def sum (x y : ExtInt) : Option ExtInt := if Compatible x y then some (x + y) else none

/-- What a value stands for under an assignment of integers to instructions. -/
def Value.eval (ρ : ℕ → ℤ) : Value → Option ExtInt
  | .marker _ => none
  | .int value => some (.int value)
  | .maxInt => some .top
  | .minInt => some .bot
  | .unknown => none
  | .instruction i false => some (.int (ρ i))
  | .instruction i true => if 0 ≤ ρ i then some (.int (ρ i)) else none
  | .add left right =>
    match left.eval ρ, right.eval ρ with
    | some x, some y => sum x y
    | _, _ => none
  | .subtract left right =>
    match left.eval ρ, right.eval ρ with
    | some x, some y => sum x (-y)
    | _, _ => none
  | .negate value => (value.eval ρ).map (-·)

/-- Constants are folded without loss. -/
def ExactFold (fold : ℤ → Option ℤ) : Prop := ∀ z n, fold z = some n → n = z

/-- The constant system that gives up where the one of `info` is not exact. -/
def ValueRangeInfo.exact (info : ValueRangeInfo) : ValueRangeInfo :=
  { info with fold := fun z => (info.fold z).filter (· = z) }

/-- No constant that matters to `f` is rounded. -/
def Unrounded {α : Type} (info : ValueRangeInfo) (f : ValueRangeInfo → α) : Prop := f info = f info.exact

theorem exactFold_exact (info : ValueRangeInfo) : ExactFold info.exact.fold := by
  intro z n h
  obtain ⟨-, h⟩ := filter_eq_some_iff.mp h
  exact of_decide_eq_true h

variable {ρ : ℕ → ℤ} {a b : Value} {x y : ExtInt}

section Eval

variable {z : ExtInt}

theorem sum_eq_some : sum x y = some z ↔ Compatible x y ∧ z = x + y := by
  unfold sum
  by_cases h : Compatible x y
  · rw [if_pos h, some_inj]
    exact ⟨fun e => ⟨h, e.symm⟩, fun e => e.2.symm⟩
  · rw [if_neg h]
    exact ⟨nofun, fun e => absurd e.1 h⟩

/-- What an operation on two values stands for, if both stand for something. -/
theorem operands_eq_some {u v : Option ExtInt} {f : ExtInt → ExtInt → Option ExtInt} :
    (match u, v with
      | some x, some y => f x y
      | _, _ => none) = some z ↔ ∃ x y, u = some x ∧ v = some y ∧ f x y = some z := by
  cases u <;> cases v <;> simp

theorem eval_add (h : (add a b).eval ρ = some z) :
    ∃ x y, a.eval ρ = some x ∧ b.eval ρ = some y ∧ Compatible x y ∧ z = x + y := by
  obtain ⟨x, y, hx, hy, h⟩ := operands_eq_some.mp h
  exact ⟨x, y, hx, hy, sum_eq_some.mp h⟩

theorem eval_subtract (h : (subtract a b).eval ρ = some z) :
    ∃ x y, a.eval ρ = some x ∧ b.eval ρ = some y ∧ Compatible x (-y) ∧ z = x + -y := by
  obtain ⟨x, y, hx, hy, h⟩ := operands_eq_some.mp h
  exact ⟨x, y, hx, hy, sum_eq_some.mp h⟩

theorem eval_negate (h : (negate a).eval ρ = some z) : ∃ x, a.eval ρ = some x ∧ z = -x := by
  obtain ⟨x, hx, rfl⟩ := map_eq_some_iff.mp h
  exact ⟨x, hx, rfl⟩

theorem eval_instruction {i : ℕ} {p : Bool} (h : (instruction i p).eval ρ = some x) :
    x = .int (ρ i) ∧ (p = true → 0 ≤ ρ i) := by
  cases p with
  | false => exact ⟨(some.inj h).symm, nofun⟩
  | true =>
    obtain ⟨hp, h⟩ := ite_none_right_eq_some.mp h
    exact ⟨(some.inj h).symm, fun _ => hp⟩

theorem add_eval (hx : a.eval ρ = some x) (hy : b.eval ρ = some y) (h : Compatible x y) :
    (add a b).eval ρ = some (x + y) :=
  operands_eq_some.mpr ⟨x, y, hx, hy, sum_eq_some.mpr ⟨h, rfl⟩⟩

theorem subtract_eval (hx : a.eval ρ = some x) (hy : b.eval ρ = some y) (h : Compatible x (-y)) :
    (subtract a b).eval ρ = some (x + -y) :=
  operands_eq_some.mpr ⟨x, y, hx, hy, sum_eq_some.mpr ⟨h, rfl⟩⟩

theorem isZero_eq (h : a.isZero) : a = .int 0 := by
  cases a <;> simp_all [isZero]

theorem signs_of_eval (h : a.eval ρ = some x) :
    (a.isPositive = true → .int 0 ≤ x) ∧ (a.isNegative = true → x ≤ .int 0) := by
  induction a generalizing x with
  | marker | unknown => exact nomatch h
  | int | maxInt | minInt =>
    cases h
    simp [isPositive, isNegative]
    try omega
  | instruction i p =>
    obtain ⟨rfl, hp⟩ := eval_instruction h
    simpa [isPositive, isNegative] using hp
  | add l r ihl ihr =>
    obtain ⟨_, _, hx, hy, -, rfl⟩ := eval_add h
    obtain ⟨hlp, hln⟩ := ihl hx
    obtain ⟨hrp, hrn⟩ := ihr hy
    simp only [isPositive, isNegative, Bool.and_eq_true]
    exact ⟨fun e => int_le_add (hlp e.1) (hrp e.2), fun e => add_le_int (hln e.1) (hrn e.2)⟩
  | subtract l r ihl ihr =>
    obtain ⟨_, _, hx, hy, -, rfl⟩ := eval_subtract h
    obtain ⟨hlp, hln⟩ := ihl hx
    obtain ⟨hrp, hrn⟩ := ihr hy
    simp only [isPositive, isNegative, Bool.and_eq_true]
    exact ⟨fun e => int_le_sub (hlp e.1) (hrn e.2), fun e => sub_le_int (hln e.1) (hrp e.2)⟩
  | negate v ih =>
    obtain ⟨_, hx, rfl⟩ := eval_negate h
    obtain ⟨hp, hn⟩ := ih hx
    exact ⟨fun e => int_le_neg (hn e), fun e => neg_le_int (hp e)⟩

theorem eq_unknown_of_equals (h : unknown.equals a) : a = .unknown := by
  cases a <;> simp_all [equals]

theorem eval_of_equals (he : a.equals b) (ha : a.eval ρ = some x) (hb : b.eval ρ = some y) :
    x = y := by
  induction a generalizing b x y with
  | marker | unknown => exact nomatch ha
  | int | maxInt | minInt => cases b <;> simp_all [equals, eval]
  | instruction i p =>
    cases b with
    | instruction j q =>
      obtain ⟨rfl, -⟩ := eval_instruction ha
      obtain ⟨rfl, -⟩ := eval_instruction hb
      rw [eq_of_beq (show (i == j) = true from he)]
    | _ => exact nomatch he
  | add l r ihl ihr =>
    cases b with
    | add l' r' =>
      obtain ⟨_, _, hx, hy, -, rfl⟩ := eval_add ha
      obtain ⟨_, _, hx', hy', -, rfl⟩ := eval_add hb
      simp only [equals, Bool.or_eq_true, Bool.and_eq_true] at he
      rcases he with ⟨h₁, h₂⟩ | ⟨h₁, h₂⟩
      · rw [ihl h₁ hx hx', ihr h₂ hy hy']
      · rw [ihl h₁ hx hy', ihr h₂ hy hx', add_comm]
    | _ => exact nomatch he
  | subtract l r ihl ihr =>
    cases b with
    | subtract l' r' =>
      obtain ⟨_, _, hx, hy, -, rfl⟩ := eval_subtract ha
      obtain ⟨_, _, hx', hy', -, rfl⟩ := eval_subtract hb
      simp only [equals, Bool.and_eq_true] at he
      rw [ihl he.1 hx hx', ihr he.2 hy hy']
    | _ => exact nomatch he
  | negate v ih =>
    cases b with
    | negate w =>
      obtain ⟨_, hx, rfl⟩ := eval_negate ha
      obtain ⟨_, hy, rfl⟩ := eval_negate hb
      rw [ih he hx hy]
    | _ => exact nomatch he

end Eval

theorem of_isSimple {v : Value} {P : Prop} (h : v = .unknown ∨ P) (hs : v.isSimple) : P := by
  rcases h with rfl | h
  · exact nomatch hs
  · exact h

/-- `Unknown`, or a value that stands for `x`. -/
def Gives (ρ : ℕ → ℤ) (x : ExtInt) (v : Value) : Prop := v = .unknown ∨ v.eval ρ = some x

theorem Gives.foldInt {fold : ℤ → Option ℤ} (hfl : ExactFold fold) (ρ : ℕ → ℤ) (z : ℤ) :
    Gives ρ (.int z) (Operators.foldInt fold z) := by
  unfold Operators.foldInt
  cases h : fold z with
  | none => exact .inl rfl
  | some n =>
    obtain rfl := hfl z n h
    exact .inr rfl

/-- What the operators do with values that stand for something. -/
structure Operators.Sound (ρ : ℕ → ℤ) (o : Operators) : Prop where
  add {a b : Value} {x y : ExtInt} : a.eval ρ = some x → b.eval ρ = some y → Compatible x y →
    Gives ρ (x + y) (o.add a b)
  sub {a b : Value} {x y : ExtInt} : a.eval ρ = some x → b.eval ρ = some y → Compatible x (-y) →
    Gives ρ (x + -y) (o.sub a b)
  neg {a : Value} {x : ExtInt} : a.eval ρ = some x → Gives ρ (-x) (o.neg a)
  unknown_add (b : Value) : o.add .unknown b = .unknown
  unknown_sub (b : Value) : o.sub .unknown b = .unknown

namespace Operators

variable {o : Operators}

section Step

variable {fold : ℤ → Option ℤ} {l r : Value}

theorem Sound.gives_add (h : Sound ρ o) (ha : Gives ρ x a)
    (hb : b.eval ρ = some y) (hxy : Compatible x y) : Gives ρ (x + y) (o.add a b) := by
  rcases ha with rfl | ha
  · exact .inl (h.unknown_add b)
  · exact h.add ha hb hxy

theorem Sound.gives_sub (h : Sound ρ o) (ha : Gives ρ x a)
    (hb : b.eval ρ = some y) (hxy : Compatible x (-y)) : Gives ρ (x + -y) (o.sub a b) := by
  rcases ha with rfl | ha
  · exact .inl (h.unknown_sub b)
  · exact h.sub ha hb hxy

theorem gives_add_zero (hz : b.isZero) (ha : a.eval ρ = some x)
    (hb : b.eval ρ = some y) : Gives ρ (x + y) a := by
  obtain rfl := isZero_eq hz
  obtain rfl := some.inj hb
  rw [add_int_zero]
  exact .inr ha

theorem gives_sub_zero (hz : b.isZero) (ha : a.eval ρ = some x)
    (hb : b.eval ρ = some y) : Gives ρ (x + -y) a := by
  obtain rfl := isZero_eq hz
  obtain rfl := some.inj hb
  exact gives_add_zero hz ha rfl

theorem compatible_regroup {z : ExtInt} (h : Compatible x y) (hz : Compatible (x + y) z) :
    Compatible x z ∧ Compatible y z ∧ Compatible (x + z) y ∧ Compatible x (y + z) := by
  cases x <;> cases y <;> cases z <;> simp_all

/-- The operators of a binary operation: they combine one of the operands with the other value. -/
theorem gives_regroup {f g : Value → Value} {t w : Value} {u v z : ExtInt} (huv : Compatible u v)
    (hz : Compatible (u + v) z) (hl : l.eval ρ = some u)
    (hf : ∀ {s x}, s.eval ρ = some x → Compatible x z → Gives ρ (x + z) (f s))
    (hg : ∀ {s x}, s.eval ρ = some x → Compatible x v → Gives ρ (x + v) (g s))
    (hzr : b.isZero → Gives ρ (u + v + z) a)
    (hr : Compatible v z → Compatible u (v + z) → t.isSimple → Gives ρ (u + (v + z)) w) :
    Gives ρ (u + v + z) (if b.isZero then a else if (f l).isSimple then g (f l) else
      if t.isSimple then w else .unknown) := by
  obtain ⟨c₁, c₂, c₃, c₄⟩ := compatible_regroup huv hz
  split_ifs with hb hs ht
  · exact hzr hb
  · rw [add_right_comm]
    exact hg (of_isSimple (hf hl c₁) hs) c₃
  · rw [add_assoc]
    exact hr c₂ c₄ ht
  · exact .inl rfl

theorem plus_int (hfl : ExactFold fold) (h : Sound ρ o) {n : ℤ}
    (hb : b.eval ρ = some y) : Gives ρ (.int n + y) (plus fold o (.int n) b) := by
  unfold plus
  dsimp only
  split
  · next hz => exact gives_add_zero hz rfl hb
  split
  · obtain rfl := some.inj hb
    exact Gives.foldInt hfl ρ _
  · rw [add_comm]
    exact h.add hb rfl (compatible_int_right _ _)

theorem minus_int (hfl : ExactFold fold) (h : Sound ρ o) {n : ℤ}
    (hb : b.eval ρ = some y) : Gives ρ (.int n + -y) (minus fold o (.int n) b) := by
  unfold minus
  dsimp only
  split
  · next hz => exact gives_sub_zero hz rfl hb
  split
  · obtain rfl := some.inj hb
    exact Gives.foldInt hfl ρ _
  · rw [add_comm]
    exact h.gives_add (h.neg hb) rfl (compatible_int_right _ _)

section

variable (h : Sound ρ o) {i : ℕ} {p : Bool} (ha : (instruction i p).eval ρ = some x)
  (hb : b.eval ρ = some y)

include h ha hb

theorem plus_instruction : Gives ρ (x + y) (plus fold o (.instruction i p) b) := by
  obtain ⟨rfl, -⟩ := eval_instruction ha
  unfold plus
  dsimp only
  split
  · next hz => exact gives_add_zero hz ha hb
  split
  · next n _ =>
    obtain rfl := some.inj hb
    split
    · refine .inr ((subtract_eval ha rfl (compatible_int_left _ _)).trans ?_)
      rw [neg_int, Int.neg_neg]
    · exact .inr (add_eval ha rfl (compatible_int_left _ _))
  · exact .inr (add_eval ha hb (compatible_int_left _ _))
  · rw [add_comm]
    exact h.add hb ha (compatible_int_right _ _)

theorem minus_instruction : Gives ρ (x + -y) (minus fold o (.instruction i p) b) := by
  obtain ⟨rfl, -⟩ := eval_instruction ha
  unfold minus
  dsimp only
  split
  · next hz => exact gives_sub_zero hz ha hb
  split
  · next he =>
    obtain rfl := eval_of_equals he ha hb
    rw [add_neg_self]
    exact .inr rfl
  split
  · next n _ _ =>
    obtain rfl := some.inj hb
    split
    · exact .inr (add_eval ha rfl (compatible_int_left _ _))
    · exact .inr (subtract_eval ha rfl (compatible_int_left _ _))
  · exact .inr (subtract_eval ha hb (compatible_int_left _ _))
  · rw [add_comm]
    exact h.gives_add (h.neg hb) ha (compatible_int_right _ _)

end

section

variable (h : Sound ρ o) {v : Value} (ha : (negate v).eval ρ = some x)
  (hb : b.eval ρ = some y)

include h ha hb

theorem plus_negate (hxy : Compatible x y) : Gives ρ (x + y) (plus fold o (.negate v) b) := by
  obtain ⟨u, hu, rfl⟩ := eval_negate ha
  unfold plus
  dsimp only
  split
  · next hz => exact gives_add_zero hz ha hb
  split
  · next he =>
    obtain rfl := eval_of_equals he hb hu
    cases y with
    | int n => exact .inr (by rw [add_comm, add_neg_self]; rfl)
    | bot | _ => exact absurd hxy (by simp)
  split
  · obtain ⟨w, hw, rfl⟩ := eval_negate hb
    exact h.sub ha hw hxy
  · obtain rfl := some.inj hb
    split
    · refine .inr ((subtract_eval ha rfl (compatible_int_right _ _)).trans ?_)
      rw [neg_int, Int.neg_neg]
    · rw [add_comm]
      exact .inr (subtract_eval rfl hu (compatible_int_left _ _))
  · rw [add_comm]
    exact .inr (subtract_eval hb hu (compatible_comm hxy))
  · rw [add_comm]
    exact h.sub hb hu (compatible_comm hxy)

theorem minus_negate (hxy : Compatible x (-y)) : Gives ρ (x + -y) (minus fold o (.negate v) b) := by
  obtain ⟨u, hu, rfl⟩ := eval_negate ha
  unfold minus
  dsimp only
  split
  · next hz => exact gives_sub_zero hz ha hb
  split
  · obtain rfl := some.inj hb
    split
    · rw [add_comm]
      exact .inr (subtract_eval rfl hu (compatible_int_left _ _))
    · exact .inr (subtract_eval ha rfl (compatible_int_right _ _))
  · exact .inr (subtract_eval ha hb hxy)
  · obtain ⟨w, hw, rfl⟩ := eval_negate hb
    rw [neg_neg] at hxy ⊢
    exact h.add ha hw hxy
  · rw [add_comm]
    exact h.gives_sub (h.neg hb) hu (compatible_comm hxy)

end

theorem negative_sound (h : Sound ρ o) (ha : a.eval ρ = some x) : Gives ρ (-x) (negative o a) := by
  cases a with
  | marker | unknown => exact nomatch ha
  | int | maxInt | minInt =>
    obtain rfl := some.inj ha
    exact .inr rfl
  | instruction => exact .inr (map_eq_some_iff.mpr ⟨_, ha, rfl⟩)
  | add l r =>
    obtain ⟨u, v, hu, hv, huv, rfl⟩ := eval_add ha
    rw [neg_add huv]
    exact h.gives_sub (h.neg hu) hv (compatible_neg huv)
  | subtract l r =>
    obtain ⟨u, v, hu, hv, huv, rfl⟩ := eval_subtract ha
    have hvu := compatible_neg (compatible_comm huv)
    rw [neg_add huv, add_comm]
    rw [neg_neg] at hvu ⊢
    exact h.sub hv hu hvu
  | negate v =>
    obtain ⟨u, hu, rfl⟩ := eval_negate ha
    rw [neg_neg]
    exact .inr hu

section

variable (hfl : ExactFold fold) (h : Sound ρ o) (ha : a.eval ρ = some x) (hb : b.eval ρ = some y)

include hfl h ha hb

theorem plus_minus_sound : (Compatible x y → Gives ρ (x + y) (plus fold o a b)) ∧
    (Compatible x (-y) → Gives ρ (x + -y) (minus fold o a b)) := by
  cases a with
  | marker | unknown => exact nomatch ha
  | int =>
    obtain rfl := some.inj ha
    exact ⟨fun _ => plus_int hfl h hb, fun _ => minus_int hfl h hb⟩
  | maxInt =>
    obtain rfl := some.inj ha
    constructor <;> refine fun hxy => .inr ?_ <;> cases y <;> first | rfl | exact absurd hxy (by simp)
  | minInt =>
    obtain rfl := some.inj ha
    exact ⟨fun _ => .inr rfl, fun _ => .inr rfl⟩
  | instruction => exact ⟨fun _ => plus_instruction h ha hb, fun _ => minus_instruction h ha hb⟩
  | add =>
    obtain ⟨u, v, hu, hv, huv, rfl⟩ := eval_add ha
    constructor <;> intro hxy
    · exact gives_regroup huv hxy hu (h.add · hb) (h.add · hv) (gives_add_zero · ha hb)
        fun c c' hs => h.add hu (of_isSimple (h.add hv hb c) hs) c'
    · exact gives_regroup huv hxy hu (h.sub · hb) (h.add · hv) (gives_sub_zero · ha hb)
        fun c c' hs => h.add hu (of_isSimple (h.sub hv hb c) hs) c'
  | subtract =>
    obtain ⟨u, v, hu, hv, huv, rfl⟩ := eval_subtract ha
    constructor <;> intro hxy
    · refine gives_regroup huv hxy hu (h.add · hb) (h.sub · hv) (gives_add_zero · ha hb) fun c c' hs => ?_
      rw [add_comm (-v)] at c' ⊢
      exact h.add hu (of_isSimple (h.sub hb hv (compatible_comm c)) hs) c'
    · refine gives_regroup huv hxy hu (h.sub · hb) (h.sub · hv) (gives_sub_zero · ha hb) fun c c' hs => ?_
      have hvy : Compatible v y := by
        have := compatible_neg c
        rwa [neg_neg, neg_neg] at this
      rw [← neg_add hvy] at c' ⊢
      exact h.sub hu (of_isSimple (h.add hv hb hvy) hs) c'
  | negate => exact ⟨plus_negate h ha hb, minus_negate h ha hb⟩

end

/-- **The operators give `Unknown` or the right value, at every depth.** -/
theorem tie_sound (hfl : ExactFold fold) (depth : ℕ) : Sound ρ (tie fold depth) := by
  induction depth with
  | zero =>
    exact ⟨fun _ _ _ => .inl rfl, fun _ _ _ => .inl rfl, fun _ => .inl rfl, fun _ => rfl, fun _ => rfl⟩
  | succ depth ih =>
    exact ⟨fun ha hb => (plus_minus_sound hfl ih ha hb).1,
      fun ha hb => (plus_minus_sound hfl ih ha hb).2, negative_sound ih, fun _ => rfl, fun _ => rfl⟩

end Step

section Extremes

theorem Sound.order_of_sign (h : Sound ρ o) (ha : a.eval ρ = some x) (hb : b.eval ρ = some y) :
    ((o.sub a b).isPositive = true → y ≤ x) ∧ ((o.sub a b).isNegative = true → x ≤ y) := by
  by_cases hxy : Compatible x (-y)
  · rcases h.sub ha hb hxy with hu | hd
    · rw [hu]
      exact ⟨nofun, nofun⟩
    · have hs := signs_of_eval hd
      cases x <;> cases y <;> simp_all
  · cases x <;> cases y <;> simp_all

/-- `v` is `Unknown`, or the smaller one of `a` and `b`. -/
def Smaller (a b v : Value) (x y : ExtInt) : Prop :=
  v = .unknown ∨ (v = a ∧ x ≤ y) ∨ (v = b ∧ y ≤ x)

/-- `v` is `Unknown`, or the larger one of `a` and `b`. -/
def Larger (a b v : Value) (x y : ExtInt) : Prop :=
  v = .unknown ∨ (v = a ∧ y ≤ x) ∨ (v = b ∧ x ≤ y)

def Extremes (a b low up : Value) (x y : ExtInt) : Prop := Smaller a b low x y ∧ Larger a b up x y

theorem extremes_of_le (h : x ≤ y) : Extremes a b a b x y :=
  ⟨.inr (.inl ⟨rfl, h⟩), .inr (.inr ⟨rfl, h⟩)⟩

theorem extremes_of_ge (h : y ≤ x) : Extremes a b b a x y :=
  ⟨.inr (.inr ⟨rfl, h⟩), .inr (.inl ⟨rfl, h⟩)⟩

theorem Extremes.swap {low up : Value} (h : Extremes a b low up x y) : Extremes b a low up y x :=
  ⟨h.1.imp_right Or.symm, h.2.imp_right Or.symm⟩

section Cases

variable (h : Sound ρ o) (ha : a.eval ρ = some x) (hb : b.eval ρ = some y)

include h ha hb

theorem value_cases : Extremes a b (valueMin o a b) (valueMax o a b) x y := by
  unfold valueMin valueMax
  split_ifs with he hm hmx hs hs
  · obtain rfl := eval_of_equals he ha hb
    exact ⟨(extremes_of_le le_rfl).1, (extremes_of_ge le_rfl).2⟩
  · subst hm
    obtain rfl := some.inj hb
    exact extremes_of_ge (bot_le x)
  · subst hmx
    obtain rfl := some.inj hb
    exact extremes_of_le (le_top x)
  · exact extremes_of_ge ((h.order_of_sign ha hb).1 hs)
  · exact extremes_of_le ((h.order_of_sign ha hb).2 hs)
  · exact ⟨.inl rfl, .inl rfl⟩

theorem symbolic_cases : Extremes a b (symbolicMin o a b) (symbolicMax o a b) x y := by
  cases a with
  | maxInt =>
    obtain rfl := some.inj ha
    exact extremes_of_ge (le_top y)
  | minInt =>
    obtain rfl := some.inj ha
    exact extremes_of_le (bot_le y)
  | unknown => exact nomatch ha
  | _ => exact value_cases h ha hb

theorem extremes_cases : Extremes a b (min o a b) (max o a b) x y := by
  unfold min max
  split
  · split
    · obtain rfl := some.inj ha
      obtain rfl := some.inj hb
      split
      · next hlt => exact extremes_of_le (int_le_int.mpr (by omega))
      · next hlt => exact extremes_of_ge (int_le_int.mpr (by omega))
    · exact (symbolic_cases h hb ha).swap
  · exact symbolic_cases h ha hb

omit h in
/-- What the tests `v == a` of the analyzer say of the extreme `v`. -/
theorem order_of_equals {v : Value} {p q : Prop} (hv : v = .unknown ∨ v = a ∧ p ∨ v = b ∧ q)
    (he : v.equals a) : p ∨ x = y := by
  rcases hv with rfl | ⟨-, hp⟩ | ⟨rfl, -⟩
  · rw [eq_unknown_of_equals he] at ha
    cases ha
  · exact .inl hp
  · exact .inr (eval_of_equals he hb ha).symm

theorem le_of_min_equals (he : (min o a b).equals a) : x ≤ y :=
  (order_of_equals ha hb (extremes_cases h ha hb).1 he).elim id le_of_eq

theorem ge_of_max_equals (he : (max o a b).equals a) : y ≤ x :=
  (order_of_equals ha hb (extremes_cases h ha hb).2 he).elim id fun heq => le_of_eq heq.symm

end Cases

end Extremes

end Operators

namespace Range

/-- The integer lies in the range, whose bounds are what they stand for under `ρ`. -/
def Contains (ρ : ℕ → ℤ) (range : Range) (z : ℤ) : Prop :=
  ∃ lo hi, range.lower.eval ρ = some lo ∧ range.upper.eval ρ = some hi ∧ lo ≤ .int z ∧ .int z ≤ hi

variable {info : ValueRangeInfo} {z : ℤ}

theorem contains_normalize {low up : Value} {lo hi : ExtInt} (hlw : Gives ρ lo low)
    (hup : Gives ρ hi up) (hlo : lo ≤ .int z) (hhi : .int z ≤ hi) :
    (normalize low up).Contains ρ z := by
  have hl : ∃ l, (normalize low up).lower.eval ρ = some l ∧ l ≤ .int z := by
    unfold normalize
    rcases hlw with rfl | hl
    · exact ⟨.bot, rfl, bot_le _⟩
    · rw [if_neg (by rintro rfl; exact nomatch hl)]
      exact ⟨lo, hl, hlo⟩
  have hu : ∃ u, (normalize low up).upper.eval ρ = some u ∧ .int z ≤ u := by
    unfold normalize
    dsimp only
    rcases hup with rfl | hu
    · exact ⟨.top, rfl, le_top _⟩
    · rw [if_neg (by rintro rfl; exact nomatch hu)]
      exact ⟨hi, hu, hhi⟩
  obtain ⟨l, hl, hlz⟩ := hl
  obtain ⟨u, hu, huz⟩ := hu
  exact ⟨l, u, hl, hu, hlz, huz⟩

theorem contains_unbound : unbound.Contains ρ z := ⟨.bot, .top, rfl, rfl, bot_le _, le_top _⟩

/-- The value that is picked when the extreme is not known is one of the two. -/
theorem pick_cases {v mine others : Value} (hv : v = .unknown ∨ v = mine ∨ v = others) :
    pick v mine others = mine ∨ pick v mine others = others := by
  unfold pick
  split
  · split
    · exact .inl rfl
    split
    · exact .inr rfl
    · exact .inl rfl
  · next hne => exact hv.resolve_left hne

/-- **An intersection contains what both ranges contain.** -/
theorem contains_intersection (hfl : ExactFold info.fold) {r r' : Range} (h : r.Contains ρ z)
    (h' : r'.Contains ρ z) : (r.intersection info r').Contains ρ z := by
  obtain ⟨_, hi, hlo, hhi, hlz, hzh⟩ := h
  obtain ⟨_, hi', hlo', hhi', hlz', hzh'⟩ := h'
  have hs : info.operators.Sound ρ := Operators.tie_sound hfl _
  unfold intersection
  have hlw := (Operators.extremes_cases hs hlo hlo').2
  have hup := (Operators.extremes_cases hs hhi hhi').1
  have hl := pick_cases (hlw.imp_right (Or.imp And.left And.left))
  have hu := pick_cases (hup.imp_right (Or.imp And.left And.left))
  rcases hl with hl | hl <;> rcases hu with hu | hu <;> rw [hl, hu]
  · exact contains_normalize (.inr hlo) (.inr hhi) hlz hzh
  · exact contains_normalize (.inr hlo) (.inr hhi') hlz hzh'
  · exact contains_normalize (.inr hlo') (.inr hhi) hlz' hzh
  · exact contains_normalize (.inr hlo') (.inr hhi') hlz' hzh'

section Ends

variable {r r' : Range} {w : ℤ} (hz : r.Contains ρ z)

include hz

theorem nonneg_of_isPositive (h : r.isPositive) : 0 ≤ z := by
  obtain ⟨_, -, hlo, -, hle, -⟩ := hz
  exact int_le_int.mp (le_trans ((signs_of_eval hlo).1 h) hle)

/-- The elements of a negative range are not positive, and zero only if that is the upper end. -/
theorem nonpos_of_isNegative (h : r.isNegative) : z ≤ 0 ∧ (z = 0 → r.upper.eval ρ = some (.int 0)) := by
  obtain ⟨-, hi, -, hhi, -, hle⟩ := hz
  have hzr := (signs_of_eval hhi).2 h
  refine ⟨int_le_int.mp (le_trans hle hzr), ?_⟩
  rintro rfl
  rw [hhi, le_antisymm hzr hle]

/-- A range that is not above the other: the elements are the same only if the two ends are. -/
theorem le_of_ends (hw : r'.Contains ρ w)
    (h : ∀ {hi lo}, r.upper.eval ρ = some hi → r'.lower.eval ρ = some lo → hi ≤ lo) :
    z ≤ w ∧ (z = w → r.upper.eval ρ = r'.lower.eval ρ) := by
  obtain ⟨-, hi, -, hhi, -, hle⟩ := hz
  obtain ⟨lo, -, hlo, -, hle', -⟩ := hw
  have ho := h hhi hlo
  refine ⟨int_le_int.mp (le_trans hle (le_trans ho hle')), ?_⟩
  rintro rfl
  rw [hhi, hlo, le_antisymm ho (le_trans hle' hle)]

end Ends

end Range

end DartSdk.Compiler.ValueRange
