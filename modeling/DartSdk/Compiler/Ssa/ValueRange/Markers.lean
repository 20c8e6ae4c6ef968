import DartSdk.Compiler.Ssa.ValueRange.Evaluation

/-!
# Arithmetic with markers

A marker stands for a bound of the loop phi that is not known yet: the marker `false` for a lower bound,
the marker `true` for an upper bound.  The operators were written for values that stand for something.
What they do with a marker is like what they do with the infinity on its side, so both are followed here
together, as the special values of a side.

* `tie_marks`: a sum with a marker is `Unknown`, the infinity of its side, or the marker again if what is
  added moves the value inward; a difference from something else is `Unknown` or the other infinity;
* `join_special`, `join_marker_int`: the minimum or maximum with a marker is the infinity of its side
  or the marker again, and for a constant the marker is right only if the constant lies inward of zero.
-/

namespace DartSdk.Compiler.ValueRange

open ExtInt Option Value

section

variable (s : Value) (positive : Bool) (x : ExtInt) (v : Value)

/-- The infinity of a side, as a value and as a bound. -/
def infinite : Value := if positive then .maxInt else .minInt

def infinity : ExtInt := if positive then .top else .bot

/-- Adding `x` moves a bound of the side inward. -/
def Inward : Prop := if positive then x ≤ .int 0 else .int 0 ≤ x

def Special (s : Value) : Prop := s = .marker positive ∨ s = infinite positive

/-- `Unknown` or the infinity of the side. -/
def Absorbed : Prop := v = .unknown ∨ v = infinite positive

/-- What comes of the special value `s` when `x` is added to it. -/
def Shifts : Prop :=
  Absorbed positive v ∨ (s = .marker positive ∧ v = s ∧ Inward positive x)

end

variable {ρ : ℕ → ℤ} {p : Bool} {s : Value} {x : ExtInt}

section Basic

variable {v : Value} {y : ExtInt}

theorem eval_infinite : (infinite p).eval ρ = some (infinity p) := by cases p <;> rfl

theorem neg_infinity : -infinity p = infinity (!p) := by cases p <;> rfl

theorem infinite_ne_marker : infinite p ≠ .marker p := by cases p <;> exact nofun

theorem inward_add (hx : Inward p x) (hy : Inward p y) : Inward p (x + y) := by
  cases p with
  | true => exact add_le_int hx hy
  | false => exact int_le_add hx hy

/-- The terms of a meaningful sum that is not an infinity are not that infinity. -/
theorem terms_ne (hc : Compatible x y) (h : x + y ≠ infinity p) : x ≠ infinity p ∧ y ≠ infinity p := by
  cases p <;> cases x <;> cases y <;> simp_all [infinity]

theorem ne_neg_infinity (h : -x ≠ infinity p) : x ≠ infinity (!p) := by
  intro hx
  exact h (by rw [hx, neg_infinity, Bool.not_not])

theorem Shifts.absorbed (h : Shifts (infinite p) p x v) : Absorbed p v :=
  h.resolve_right fun ⟨he, _⟩ => infinite_ne_marker he

theorem Shifts.special (h : Shifts s p x v) (hs : v.isSimple) :
    v = infinite p ∨ (s = .marker p ∧ v = s ∧ Inward p x) := by
  rcases h with (rfl | h) | h
  · exact nomatch hs
  · exact .inl h
  · exact .inr h

theorem Special.isZero (h : Special p s) : s.isZero = false := by
  rcases h with rfl | rfl
  · rfl
  · cases p <;> rfl

/-- A marker is equal to nothing that stands for something, an infinity to itself only. -/
theorem Special.eq_of_equals (h : Special p s) (hv : v.eval ρ = some x) (he : s.equals v) :
    x = infinity p := by
  rcases h with rfl | rfl
  · cases v with
    | marker => exact nomatch hv
    | _ => exact nomatch he
  · exact (eval_of_equals he eval_infinite hv).symm

end Basic

/-- What the operators do with special values. -/
structure Operators.Marks (ρ : ℕ → ℤ) (o : Operators) : Prop where
  neg {p : Bool} {s : Value} : Special p s → Absorbed (!p) (o.neg s)
  special_add {p : Bool} {s b : Value} {x : ExtInt} : Special p s → b.eval ρ = some x →
    Shifts s p x (o.add s b)
  special_sub {p : Bool} {s b : Value} {x : ExtInt} : Special p s → b.eval ρ = some x →
    Shifts s p (-x) (o.sub s b)
  add_special {p : Bool} {s a : Value} {x : ExtInt} : Special p s → a.eval ρ = some x →
    x ≠ infinity (!p) → Shifts s p x (o.add a s)
  sub_special {p : Bool} {s a : Value} {x : ExtInt} : Special p s → a.eval ρ = some x →
    x ≠ infinity p → Absorbed (!p) (o.sub a s)
  marker_add_marker (p q : Bool) : o.add (.marker p) (.marker q) = .unknown
  marker_sub_marker (p q : Bool) : o.sub (.marker p) (.marker q) = .unknown
  marker_sub_int (p : Bool) (n : ℤ) : o.sub (.marker p) (.int n) = .unknown ∨
    o.sub (.marker p) (.int n) = .marker p ∨
      o.sub (.marker p) (.int n) = infinite p ∧ Inward p (.int n)

namespace Operators

variable {fold : ℤ → Option ℤ} {o : Operators}

section Equations

/-! The branches that special values take on the right of an operator. -/

theorem special_eq (hs : Special p s) :
    (∀ n, plus fold o (.int n) s = o.add s (.int n) ∧
      minus fold o (.int n) s = o.add (o.neg s) (.int n)) ∧
    (∀ i q, plus fold o (.instruction i q) s = o.add s (.instruction i q) ∧
      minus fold o (.instruction i q) s = o.add (o.neg s) (.instruction i q)) ∧
    ∀ v, plus fold o (.negate v) s = (if s.equals v then .int 0 else o.sub s v) ∧
      minus fold o (.negate v) s = o.sub (o.neg s) v := by
  rcases hs with rfl | rfl
  · exact ⟨fun _ => ⟨rfl, rfl⟩, fun _ _ => ⟨rfl, rfl⟩, fun _ => ⟨rfl, rfl⟩⟩
  · cases p <;> exact ⟨fun _ => ⟨rfl, rfl⟩, fun _ _ => ⟨rfl, rfl⟩, fun _ => ⟨rfl, rfl⟩⟩

end Equations

section Step

variable {b a l r : Value}

section

variable (h : Marks ρ o)

include h

theorem Marks.infinite_add (hb : b.eval ρ = some x) :
    Absorbed p (o.add (infinite p) b) := (h.special_add (.inr rfl) hb).absorbed

theorem Marks.infinite_sub (hb : b.eval ρ = some x) :
    Absorbed p (o.sub (infinite p) b) := (h.special_sub (.inr rfl) hb).absorbed

theorem Marks.absorbed_add (ho : Sound ρ o) (ha : Absorbed p a)
    (hb : b.eval ρ = some x) : Absorbed p (o.add a b) := by
  rcases ha with rfl | rfl
  · exact .inl (ho.unknown_add b)
  · exact h.infinite_add hb

theorem Marks.absorbed_sub (ho : Sound ρ o) (ha : Absorbed p a)
    (hb : b.eval ρ = some x) : Absorbed p (o.sub a b) := by
  rcases ha with rfl | rfl
  · exact .inl (ho.unknown_sub b)
  · exact h.infinite_sub hb

/-- A special value is added to a binary operation, which adds `u` and `z`: `f` adds `z`. -/
theorem shifts_regroup {f : Value → Value} {t : Value} {u z : ExtInt} (hs : Special p s)
    (hl : l.eval ρ = some u) (hu : u ≠ infinity (!p)) (hf : ∀ {s}, Special p s → Shifts s p z (f s))
    (ht : Shifts s p z t) : Shifts s p (u + z) (if s.isZero then a else
      if (o.add l s).isSimple then f (o.add l s) else if t.isSimple then o.add l t else .unknown) := by
  rw [if_neg (by rw [hs.isZero]; exact nofun)]
  split
  · next hsm =>
    rcases (h.add_special hs hl hu).special hsm with he | ⟨rfl, he, hin⟩ <;> rw [he]
    · exact .inl (hf (.inr rfl)).absorbed
    · exact (hf (.inl rfl)).imp_right fun ⟨_, e, hin'⟩ => ⟨rfl, e, inward_add hin hin'⟩
  split
  · next hsm =>
    rcases ht.special hsm with he | ⟨rfl, he, hin⟩ <;> rw [he]
    · exact .inl (h.add_special (.inr rfl) hl hu).absorbed
    · exact (h.add_special (.inl rfl) hl hu).imp_right fun ⟨_, e, hin'⟩ => ⟨rfl, e, inward_add hin' hin⟩
  · exact .inl (.inl rfl)

theorem absorbed_regroup {f g : Value → Value} {t : Value} {u : ExtInt} (hs : Special p s)
    (hl : l.eval ρ = some u) (hu : u ≠ infinity p) (hf : Absorbed (!p) (f (infinite (!p))))
    (hg : t.isSimple → Absorbed (!p) (g t)) : Absorbed (!p) (if s.isZero then a else
      if (o.sub l s).isSimple then f (o.sub l s) else if t.isSimple then g t else .unknown) := by
  rw [if_neg (by rw [hs.isZero]; exact nofun)]
  split_ifs with hsm hsm
  · rw [of_isSimple (h.sub_special hs hl hu) hsm]
    exact hf
  · exact hg hsm
  · exact .inl rfl

theorem plus_special (hs : Special p s) (ha : a.eval ρ = some x)
    (hx : x ≠ infinity (!p)) : Shifts s p x (plus fold o a s) := by
  cases a with
  | marker | unknown => exact nomatch ha
  | int n =>
    rw [((special_eq hs).1 n).1]
    exact h.special_add hs ha
  | maxInt =>
    obtain rfl := some.inj ha
    cases p with
    | true => exact .inl (.inr rfl)
    | false => exact absurd rfl hx
  | minInt =>
    obtain rfl := some.inj ha
    cases p with
    | true => exact absurd rfl hx
    | false => exact .inl (.inr rfl)
  | instruction i q =>
    rw [((special_eq hs).2.1 i q).1]
    exact h.special_add hs ha
  | add =>
    obtain ⟨u, v, hu, hv, huv, rfl⟩ := eval_add ha
    obtain ⟨hu', hv'⟩ := terms_ne huv hx
    exact shifts_regroup h hs hu hu' (h.special_add · hv) (h.add_special hs hv hv')
  | subtract =>
    obtain ⟨u, v, hu, hv, huv, rfl⟩ := eval_subtract ha
    obtain ⟨hu', -⟩ := terms_ne huv hx
    exact shifts_regroup h hs hu hu' (h.special_sub · hv) (h.special_sub hs hv)
  | negate v =>
    obtain ⟨u, hu, rfl⟩ := eval_negate ha
    rw [((special_eq hs).2.2 v).1, if_neg]
    · exact h.special_sub hs hu
    · intro he
      exact hx (by rw [hs.eq_of_equals hu he, neg_infinity])

theorem minus_special (ho : Sound ρ o) (hs : Special p s)
    (ha : a.eval ρ = some x) (hx : x ≠ infinity p) : Absorbed (!p) (minus fold o a s) := by
  cases a with
  | marker | unknown => exact nomatch ha
  | int n =>
    rw [((special_eq hs).1 n).2]
    exact h.absorbed_add ho (h.neg hs) ha
  | maxInt =>
    obtain rfl := some.inj ha
    cases p with
    | true => exact absurd rfl hx
    | false => exact .inr rfl
  | minInt =>
    obtain rfl := some.inj ha
    cases p with
    | true => exact .inr rfl
    | false => exact absurd rfl hx
  | instruction i q =>
    rw [((special_eq hs).2.1 i q).2]
    exact h.absorbed_add ho (h.neg hs) ha
  | add =>
    obtain ⟨u, v, hu, hv, huv, rfl⟩ := eval_add ha
    obtain ⟨hu', hv'⟩ := terms_ne huv hx
    refine absorbed_regroup h (f := (o.add · _)) hs hu hu' (h.infinite_add hv) fun hsm => ?_
    rw [of_isSimple (h.sub_special hs hv hv') hsm]
    exact (h.add_special (.inr rfl) hu (by rw [Bool.not_not]; exact hu')).absorbed
  | subtract =>
    obtain ⟨u, v, hu, hv, huv, rfl⟩ := eval_subtract ha
    obtain ⟨hu', hv'⟩ := terms_ne huv hx
    refine absorbed_regroup h (f := (o.sub · _)) hs hu hu' (h.infinite_sub hv) fun hsm => ?_
    rcases (h.add_special hs hv (ne_neg_infinity hv')).special hsm with he | ⟨rfl, he, -⟩ <;> rw [he]
    · exact h.sub_special (.inr rfl) hu hu'
    · exact h.sub_special (.inl rfl) hu hu'
  | negate v =>
    obtain ⟨u, hu, rfl⟩ := eval_negate ha
    rw [((special_eq hs).2.2 v).2]
    exact h.absorbed_sub ho (h.neg hs) hu

end

/-- What a marker becomes: `outward` and `outward'` are the tests for a value that moves it outward. -/
theorem shifts_marker {outward outward' : Bool} {v v' : Value}
    (hv : outward → v = infinite p) (hv' : outward' → v' = infinite p)
    (hin : outward = false → outward' = false → b.isIntValue → Inward p x) :
    Shifts (.marker p) p x (if outward then v else if outward' then v' else
      if b.isIntValue then .marker p else .unknown) := by
  split_ifs with h h' hint
  · exact .inl (.inr (hv h))
  · exact .inl (.inr (hv' h'))
  · exact .inr ⟨rfl, rfl, hin (Bool.eq_false_iff.mpr h) (Bool.eq_false_iff.mpr h') hint⟩
  · exact .inl (.inl rfl)

theorem special_plus_minus (hs : Special p s) (hb : b.eval ρ = some x) :
    Shifts s p x (plus fold o s b) ∧ Shifts s p (-x) (minus fold o s b) := by
  rcases hs with rfl | rfl
  · constructor
    all_goals
      refine shifts_marker ?_ ?_ fun h h' hint => ?_
      · cases p <;> simp [infinite]
      · cases p <;> simp [infinite]
      · cases b with
        | int n =>
          obtain rfl := some.inj hb
          cases p <;> simp_all [Inward, isPositive, isNegative]
          omega
        | _ => cases hint
  · cases p <;> exact ⟨.inl (.inr rfl), .inl (.inr rfl)⟩

/-- **What the operators do with markers, at every depth.** -/
theorem tie_marks (hf : ExactFold fold) (depth : ℕ) : Marks ρ (tie fold depth) := by
  induction depth with
  | zero =>
    exact ⟨fun _ => .inl rfl, fun _ _ => .inl (.inl rfl), fun _ _ => .inl (.inl rfl),
      fun _ _ _ => .inl (.inl rfl), fun _ _ _ => .inl rfl, fun _ _ => rfl, fun _ _ => rfl,
      fun _ _ => .inl rfl⟩
  | succ depth ih =>
    refine ⟨?_, fun hs hb => (special_plus_minus hs hb).1, fun hs hb => (special_plus_minus hs hb).2,
      fun hs ha hx => plus_special ih hs ha hx, fun hs ha hx => minus_special ih (tie_sound hf depth) hs ha hx,
      ?_, ?_, ?_⟩
    · intro p s hs
      rcases hs with rfl | rfl
      · exact .inl rfl
      · cases p <;> exact .inr rfl
    · intro p q
      cases p <;> cases q <;> rfl
    · intro p q
      cases p <;> cases q <;> rfl
    · intro p n
      right
      by_cases hn : 0 ≤ n <;> cases p <;>
        simp [tie, minus, isPositive, isNegative, isIntValue, infinite, Inward, hn]
      omega

def IntOrUnknown (v : Value) : Prop := v = .unknown ∨ ∃ j, v = .int j

theorem foldInt_cases (z : ℤ) : IntOrUnknown (foldInt fold z) := by
  unfold foldInt
  cases fold z with
  | none => exact .inl rfl
  | some j => exact .inr ⟨j, rfl⟩

theorem tie_int (depth : ℕ) (n k : ℤ) : IntOrUnknown ((tie fold depth).add (.int n) (.int k)) ∧
    IntOrUnknown ((tie fold depth).sub (.int n) (.int k)) := by
  cases depth with
  | zero => exact ⟨.inl rfl, .inl rfl⟩
  | succ depth =>
    simp only [tie, plus, minus]
    split
    · exact ⟨.inr ⟨n, rfl⟩, .inr ⟨n, rfl⟩⟩
    · exact ⟨foldInt_cases (n + k), foldInt_cases (n - k)⟩

end Step

/-- The smaller lower bound or the larger upper bound. -/
def join (positive : Bool) (o : Operators) (a b : Value) : Value :=
  if positive then o.max a b else o.min a b

section Join

theorem join_special {a b : Value} (ha : Special p a) (hb : Special p b) :
    Special p (join p o a b) ∧ (join p o a b = .marker p → a = .marker p ∧ b = .marker p) := by
  rcases ha with rfl | rfl <;> rcases hb with rfl | rfl <;> cases p <;>
    simp [join, min, max, symbolicMin, symbolicMax, valueMin, valueMax, infinite, Special, equals]

theorem join_marker_int (h : Marks ρ o) (n : ℤ) :
    join p o (.marker p) (.int n) = .unknown ∨
      join p o (.marker p) (.int n) = .marker p ∧ Inward p (.int n) := by
  have hj : join p o (.marker p) (.int n) =
      if p then valueMax o (.marker p) (.int n) else valueMin o (.marker p) (.int n) := by
    cases p <;> rfl
  rw [hj]
  rcases h.marker_sub_int p n with hu | hm | ⟨hi, hin⟩
  · exact .inl (by cases p <;> simp [valueMin, valueMax, hu, equals, isPositive, isNegative])
  · exact .inl (by cases p <;> simp [valueMin, valueMax, hm, equals, isPositive, isNegative])
  · refine .inr ⟨?_, hin⟩
    cases p <;> simp [valueMin, valueMax, hi, infinite, equals, isPositive, isNegative]

theorem join_int_marker (n : ℤ) : join p o (.int n) (.marker p) = join p o (.marker p) (.int n) := by
  cases p <;> rfl

end Join

end Operators

end DartSdk.Compiler.ValueRange
