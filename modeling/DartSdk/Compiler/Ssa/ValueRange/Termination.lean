import DartSdk.Compiler.Ssa.ValueRange
import Mathlib.Tactic.SplitIfs

/-!
# The operators of values return

The operators call each other with operands that are not parts of the first ones.  What gets smaller is the
number of leaves: no operator adds one, and a result that the operators go on with (`isSimple`) has lost
at least one.

* `operators_settle`: for given values some depth is enough.
-/

namespace DartSdk.Compiler.ValueRange

open Operators

namespace Value

def leaves : Value → ℕ
  | add left right | subtract left right => left.leaves + right.leaves
  | negate value => value.leaves
  | _ => 1

def isAtom : Value → Bool
  | int _ | instruction _ _ => true
  | _ => false

/-- The values whose operations may call one on as many leaves. -/
def swaps : Value → Bool
  | int _ | instruction _ _ | negate _ => true
  | _ => false

theorem isSimple_of_swaps {a : Value} (h : a.swaps) : a.isSimple := by
  cases a <;> first | rfl | cases h

theorem leaves_pos (a : Value) : 0 < a.leaves := by
  induction a <;> simp only [leaves] <;> omega

end Value

/-- What is left of `n` leaves. -/
def Shrunk (v : Value) (n : ℕ) : Prop := v.leaves ≤ n ∧ (v.isSimple → v.leaves < n)

theorem Shrunk.mono {v : Value} {m n : ℕ} (h : Shrunk v m) (hmn : m ≤ n) : Shrunk v n :=
  ⟨Nat.le_trans h.1 hmn, fun hs => Nat.lt_of_lt_of_le (h.2 hs) hmn⟩

/-- `operator -`, or `operator +` -/
def Operators.call (o : Operators) (minus : Bool) : Value → Value → Value := cond minus o.sub o.add

structure Operators.Shrinks (o : Operators) : Prop where
  add (a b : Value) : Shrunk (o.add a b) (a.leaves + b.leaves)
  sub (a b : Value) : Shrunk (o.sub a b) (a.leaves + b.leaves)
  neg (a : Value) : (o.neg a).leaves ≤ a.leaves ∧
    (a.swaps = false → (o.neg a).swaps → (o.neg a).leaves < a.leaves)

namespace Operators

section Shrinks

variable {fold : ℤ → Option ℤ} {o : Operators} {v : Value} {n : ℕ}

theorem Shrinks.call (h : Shrinks o) (p : Bool) (a b : Value) :
    Shrunk (o.call p a b) (a.leaves + b.leaves) := by
  cases p with
  | false => exact h.add a b
  | true => exact h.sub a b

theorem shrunk_of_lt (h : v.leaves < n) : Shrunk v n := ⟨Nat.le_of_lt h, fun _ => h⟩

theorem shrunk_unknown (hn : 0 < n) : Shrunk .unknown n := ⟨hn, nofun⟩

theorem shrunk_foldInt (value : ℤ) : Shrunk (foldInt fold value) 2 := by
  unfold foldInt
  split
  · exact shrunk_of_lt Nat.one_lt_two
  · exact shrunk_unknown Nat.two_pos

theorem Shrinks.neg_add (h : Shrinks o) (a b : Value) :
    Shrunk (o.add (o.neg b) a) (a.leaves + b.leaves) := by
  have := (h.neg b).1
  exact (h.add _ _).mono (by omega)

theorem Shrinks.neg_sub (h : Shrinks o) (a b : Value) :
    Shrunk (o.sub (o.neg b) a) (a.leaves + b.leaves) := by
  have := (h.neg b).1
  exact (h.sub _ _).mono (by omega)

theorem Shrinks.plus (h : Shrinks o) (a b : Value) : Shrunk (plus fold o a b) (a.leaves + b.leaves) := by
  have ha := a.leaves_pos
  have hb := b.leaves_pos
  have hzr : Shrunk a (a.leaves + b.leaves) := shrunk_of_lt (by omega)
  have hsw : Shrunk (o.add b a) (a.leaves + b.leaves) := (h.add b a).mono (by omega)
  cases a with
  | marker =>
    dsimp only [Operators.plus]
    split_ifs <;> exact shrunk_of_lt (Nat.lt_add_of_pos_right hb)
  | maxInt | minInt | unknown => exact hzr
  | int =>
    dsimp only [Operators.plus]
    split_ifs
    · exact hzr
    split
    · exact shrunk_foldInt _
    · exact hsw
  | instruction =>
    dsimp only [Operators.plus]
    split_ifs
    · exact hzr
    split
    · split_ifs <;> exact ⟨Nat.le_refl _, nofun⟩
    · exact ⟨Nat.le_refl _, nofun⟩
    · exact hsw
  | add l r =>
    simp only [Value.leaves] at ha hzr hsw ⊢
    dsimp only [Operators.plus]
    split_ifs with hz hs hs
    · exact hzr
    · have := (h.add l b).2 hs
      exact (h.add _ _).mono (by omega)
    · have := (h.add r b).2 hs
      exact (h.add _ _).mono (by omega)
    · exact shrunk_unknown (by omega)
  | subtract l r =>
    simp only [Value.leaves] at ha hzr hsw ⊢
    dsimp only [Operators.plus]
    split_ifs with hz hs hs
    · exact hzr
    · have := (h.add l b).2 hs
      exact (h.sub _ _).mono (by omega)
    · have := (h.sub b r).2 hs
      exact (h.add _ _).mono (by omega)
    · exact shrunk_unknown (by omega)
  | negate v =>
    simp only [Value.leaves] at ha hzr hsw ⊢
    dsimp only [Operators.plus]
    split_ifs
    · exact hzr
    · exact shrunk_of_lt (by simp only [Value.leaves]; omega)
    split
    · exact h.sub _ _
    · split_ifs
      · exact ⟨Nat.le_refl _, nofun⟩
      · exact ⟨Nat.le_of_eq (Nat.add_comm _ _), nofun⟩
    · exact ⟨Nat.le_of_eq (Nat.add_comm _ _), nofun⟩
    · exact (h.sub b v).mono (by omega)

theorem Shrinks.minus (h : Shrinks o) (a b : Value) : Shrunk (minus fold o a b) (a.leaves + b.leaves) := by
  have ha := a.leaves_pos
  have hb := b.leaves_pos
  have hzr : Shrunk a (a.leaves + b.leaves) := shrunk_of_lt (by omega)
  have hn := h.neg_add a b
  cases a with
  | marker =>
    dsimp only [Operators.minus]
    split_ifs <;> exact shrunk_of_lt (Nat.lt_add_of_pos_right hb)
  | maxInt | minInt | unknown => exact hzr
  | int =>
    dsimp only [Operators.minus]
    split_ifs
    · exact hzr
    split
    · exact shrunk_foldInt _
    · exact hn
  | instruction =>
    dsimp only [Operators.minus]
    split_ifs
    · exact hzr
    · exact shrunk_of_lt (Nat.lt_add_of_pos_right hb)
    split
    · split_ifs <;> exact ⟨Nat.le_refl _, nofun⟩
    · exact ⟨Nat.le_refl _, nofun⟩
    · exact hn
  | add l r =>
    simp only [Value.leaves] at ha hzr ⊢
    dsimp only [Operators.minus]
    split_ifs with hz hs hs
    · exact hzr
    · have := (h.sub l b).2 hs
      exact (h.add _ _).mono (by omega)
    · have := (h.sub r b).2 hs
      exact (h.add _ _).mono (by omega)
    · exact shrunk_unknown (by omega)
  | subtract l r =>
    simp only [Value.leaves] at ha hzr ⊢
    dsimp only [Operators.minus]
    split_ifs with hz hs hs
    · exact hzr
    · have := (h.sub l b).2 hs
      exact (h.sub _ _).mono (by omega)
    · have := (h.add r b).2 hs
      exact (h.sub _ _).mono (by omega)
    · exact shrunk_unknown (by omega)
  | negate v =>
    simp only [Value.leaves] at ha hzr ⊢
    dsimp only [Operators.minus]
    split_ifs
    · exact hzr
    split
    · split_ifs
      · exact ⟨Nat.le_of_eq (Nat.add_comm _ _), nofun⟩
      · exact ⟨Nat.le_refl _, nofun⟩
    · exact ⟨Nat.le_refl _, nofun⟩
    · exact h.add _ _
    · exact h.neg_sub v b

theorem tie_shrinks (fold : ℤ → Option ℤ) (depth : ℕ) : Shrinks (tie fold depth) := by
  induction depth with
  | zero =>
    have hu (a b : Value) : Shrunk .unknown (a.leaves + b.leaves) :=
      shrunk_unknown (Nat.add_pos_left a.leaves_pos _)
    exact ⟨hu, hu, fun a => ⟨a.leaves_pos, nofun⟩⟩
  | succ depth ih =>
    refine ⟨ih.plus, ih.minus, fun a => ?_⟩
    cases a with
    | add l r =>
      have hn := (ih.neg_sub r l).mono (Nat.le_of_eq (Nat.add_comm _ _))
      exact ⟨hn.1, fun _ h => hn.2 (Value.isSimple_of_swaps h)⟩
    | subtract l r =>
      have hn := (ih.sub r l).mono (Nat.le_of_eq (Nat.add_comm _ _))
      exact ⟨hn.1, fun _ h => hn.2 (Value.isSimple_of_swaps h)⟩
    | _ => exact ⟨Nat.le_refl _, nofun⟩

end Shrinks

/-! ### Enough depth -/

/-- From some depth on, `f` is the same. -/
def Settled (fold : ℤ → Option ℤ) (f : Operators → Value) : Prop :=
  ∃ depth v, ∀ d, depth ≤ d → f (tie fold d) = v

section Settled

variable {fold : ℤ → Option ℤ} {f : Operators → Value} {a b v : Value} {n : ℕ}

theorem settled_const (v : Value) : Settled fold fun _ => v := ⟨0, v, fun _ _ => rfl⟩

theorem settled_of_const (h : ∀ o o', f o = f o') : Settled fold f := ⟨0, _, fun _ _ => h _ (tie fold 0)⟩

theorem Settled.agree (h : Settled fold f) :
    ∃ depth, ∀ d d', depth ≤ d → depth ≤ d' → f (tie fold d) = f (tie fold d') := by
  obtain ⟨depth, v, h⟩ := h
  exact ⟨depth, fun d d' hd hd' => (h d hd).trans (h d' hd').symm⟩

theorem Settled.ite (c : Bool) (v : Value) (h : Settled fold f) :
    Settled fold fun o => if c then v else f o := by
  cases c with
  | false => exact h
  | true => exact settled_const v

theorem Settled.succ (h : Settled fold f) {g : Operators → Value}
    (hg : ∀ d, g (tie fold (d + 1)) = f (tie fold d)) : Settled fold g := by
  obtain ⟨depth, v, h⟩ := h
  refine ⟨depth + 1, v, fun d hd => ?_⟩
  obtain ⟨d, rfl⟩ := Nat.exists_eq_add_of_le' hd
  exact (hg _).trans (h _ (Nat.le_add_left _ _))

theorem Settled.bind (h : Settled fold f) {g : Operators → Value → Value}
    (hg : ∀ d, Settled fold (g · (f (tie fold d)))) : Settled fold fun o => g o (f o) := by
  obtain ⟨depth, v, h⟩ := h
  obtain ⟨depth', w, hw⟩ := hg depth
  refine ⟨depth + depth', w, fun d hd => ?_⟩
  rw [← hw d (by omega), h depth (Nat.le_refl _)]
  exact congrArg _ (h d (by omega))

theorem Settled.add (h : Settled fold fun o => plus fold o a b) : Settled fold (·.add a b) :=
  h.succ fun _ => rfl

theorem Settled.sub (h : Settled fold fun o => minus fold o a b) : Settled fold (·.sub a b) :=
  h.succ fun _ => rfl

theorem Settled.neg (h : Settled fold fun o => negative o a) : Settled fold (·.neg a) :=
  h.succ fun _ => rfl

/-- The operations on fewer than `n` leaves return. -/
structure SettledBelow (fold : ℤ → Option ℤ) (n : ℕ) : Prop where
  call (p : Bool) (a b : Value) : a.leaves + b.leaves < n → Settled fold (·.call p a b)
  neg (a : Value) : a.leaves < n → Settled fold (·.neg a)

section Step

variable (ih : SettledBelow fold n)

include ih

/-- A binary operation, which goes on with one of two results. -/
theorem settled_regroup {p q s t : Bool} {x y z u v w : Value} (hn : x.leaves + y.leaves + z.leaves ≤ n)
    (hn' : u.leaves + v.leaves + w.leaves ≤ n) :
    Settled fold fun o =>
      if (o.call p x y).isSimple then o.call q (o.call p x y) z
      else if (o.call s u v).isSimple then o.call t w (o.call s u v)
      else .unknown := by
  have hz := z.leaves_pos
  have hw := w.leaves_pos
  refine (ih.call p x y (by omega)).bind (g := fun o r => if r.isSimple then o.call q r z
    else if (o.call s u v).isSimple then o.call t w (o.call s u v) else .unknown) fun d => ?_
  split
  next hs =>
    have := ((tie_shrinks fold d).call p x y).2 hs
    exact ih.call _ _ _ (by omega)
  refine (ih.call s u v (by omega)).bind
    (g := fun o r => if r.isSimple then o.call t w r else .unknown) fun d => ?_
  split
  next hs =>
    have := ((tie_shrinks fold d).call s u v).2 hs
    exact ih.call _ _ _ (by omega)
  · exact settled_const _

/-- The other operations only call operations on fewer leaves. -/
theorem settled_of_not_swaps (ha : a.swaps = false) (hn : a.leaves + b.leaves ≤ n) :
    Settled fold (·.add a b) ∧ Settled fold (·.sub a b) := by
  cases a with
  | add l r =>
    simp only [Value.leaves] at hn
    refine ⟨Settled.add ?_, Settled.sub ?_⟩
    · dsimp only [plus]
      split
      · exact settled_const _
      · exact settled_regroup ih (p := false) (q := false) (s := false) (t := false) (by omega) (by omega)
    · dsimp only [minus]
      split
      · exact settled_const _
      · exact settled_regroup ih (p := true) (q := false) (s := true) (t := false) (by omega) (by omega)
  | subtract l r =>
    simp only [Value.leaves] at hn
    refine ⟨Settled.add ?_, Settled.sub ?_⟩
    · dsimp only [plus]
      split
      · exact settled_const _
      · exact settled_regroup ih (p := false) (q := true) (s := true) (t := false) (by omega) (by omega)
    · dsimp only [minus]
      split
      · exact settled_const _
      · exact settled_regroup ih (p := true) (q := true) (s := false) (t := true) (by omega) (by omega)
  | marker | maxInt | minInt | unknown =>
    exact ⟨.add (settled_of_const fun _ _ => rfl), .sub (settled_of_const fun _ _ => rfl)⟩
  | _ => cases ha

/-- An integer or an instruction swaps the operands at most once. -/
theorem settled_add_atom (a : Value) (hb : b.isAtom) (hn : a.leaves + b.leaves ≤ n) :
    Settled fold (·.add a b) := by
  cases a with
  | int value =>
    cases b with
    | int => exact .add (settled_of_const fun _ _ => rfl)
    | instruction i positive =>
      have hs : Settled fold (·.add (.instruction i positive) (.int value)) :=
        .add (settled_of_const fun _ _ => rfl)
      exact hs.succ fun _ => rfl
    | _ => cases hb
  | instruction | negate =>
    cases b with
    | int | instruction => exact .add (settled_of_const fun _ _ => rfl)
    | _ => cases hb
  | _ => exact (settled_of_not_swaps ih rfl hn).1

theorem settled_neg_add (hb : b.isAtom) (hn : b.leaves + a.leaves ≤ n) :
    Settled fold fun o => o.add (o.neg a) b := by
  have hp := b.leaves_pos
  refine (ih.neg a (by omega)).bind (g := fun o v => o.add v b) fun d => ?_
  have := ((tie_shrinks fold d).neg a).1
  exact settled_add_atom ih _ hb (by omega)

theorem settled_neg_sub (ha : a.swaps = false) (hn : b.leaves + a.leaves ≤ n) :
    Settled fold fun o => o.sub (o.neg a) b := by
  have hp := b.leaves_pos
  refine (ih.neg a (by omega)).bind (g := fun o v => o.sub v b) fun d => ?_
  obtain ⟨hle, hlt⟩ := (tie_shrinks fold d).neg a
  cases hs : ((tie fold d).neg a).swaps with
  | false => exact (settled_of_not_swaps ih hs (by omega)).2
  | true =>
    have := hlt ha hs
    exact ih.call true _ _ (by omega)

/-- The negations of the second operand are taken off one by one. -/
theorem settled_negate (v b : Value) (hn : v.leaves + b.leaves ≤ n) :
    Settled fold (·.add (.negate v) b) ∧ Settled fold (·.sub (.negate v) b) := by
  have hp := v.leaves_pos
  induction b with
  | int | instruction =>
    exact ⟨.add (settled_of_const fun _ _ => rfl), .sub (settled_of_const fun _ _ => rfl)⟩
  | negate b hb =>
    obtain ⟨ha, hs⟩ := hb hn
    exact ⟨(hs.ite ((Value.negate b).equals v) (.int 0)).succ fun _ => rfl, ha.succ fun _ => rfl⟩
  | _ =>
    have hs := (settled_of_not_swaps ih rfl (Nat.le_trans (Nat.le_of_eq (Nat.add_comm _ _)) hn)).2
    exact ⟨(hs.ite (Value.equals _ v) (.int 0)).succ fun _ => rfl,
      (settled_neg_sub ih rfl hn).succ fun _ => rfl⟩

/-- The operations on `n` leaves. -/
theorem settled_call (a b : Value) (hn : a.leaves + b.leaves ≤ n) :
    Settled fold (·.add a b) ∧ Settled fold (·.sub a b) := by
  cases a with
  | negate v => exact settled_negate ih v b hn
  | int =>
    cases b with
    | int => exact ⟨.add (settled_of_const fun _ _ => rfl), .sub (settled_of_const fun _ _ => rfl)⟩
    | _ =>
      exact ⟨(settled_add_atom ih _ rfl (Nat.le_trans (Nat.le_of_eq (Nat.add_comm _ _)) hn)).succ fun _ => rfl,
        (settled_neg_add ih rfl hn).succ fun _ => rfl⟩
  | instruction =>
    cases b with
    | int | instruction =>
      exact ⟨.add (settled_of_const fun _ _ => rfl), .sub (settled_of_const fun _ _ => rfl)⟩
    | _ =>
      exact ⟨(settled_add_atom ih _ rfl (Nat.le_trans (Nat.le_of_eq (Nat.add_comm _ _)) hn)).succ fun _ => rfl,
        (settled_neg_add ih rfl hn).succ fun _ => rfl⟩
  | _ => exact settled_of_not_swaps ih rfl hn

theorem settled_neg (a : Value) (hn : a.leaves ≤ n) : Settled fold (·.neg a) := by
  cases a with
  | add l r =>
    simp only [Value.leaves] at hn
    have hp := r.leaves_pos
    refine Settled.neg ((ih.neg l (by omega)).bind (g := fun o v => o.sub v r) fun d => ?_)
    have := ((tie_shrinks fold d).neg l).1
    exact (settled_call ih _ _ (by omega)).2
  | subtract l r =>
    simp only [Value.leaves] at hn
    exact Settled.neg (settled_call ih r l (by omega)).2
  | _ => exact .neg (settled_of_const fun _ _ => rfl)

end Step

theorem settledBelow (fold : ℤ → Option ℤ) (n : ℕ) : SettledBelow fold n := by
  induction n with
  | zero => exact ⟨nofun, nofun⟩
  | succ n ih =>
    refine ⟨fun p a b hn => ?_, fun a hn => settled_neg ih a (Nat.le_of_lt_succ hn)⟩
    obtain ⟨ha, hs⟩ := settled_call ih a b (Nat.le_of_lt_succ hn)
    cases p with
    | false => exact ha
    | true => exact hs

end Settled

/-- What `min` and `max` do depends on the difference only. -/
theorem extremes_congr {o o' : Operators} {a b : Value} (h : o.sub a b = o'.sub a b)
    (h' : o.sub b a = o'.sub b a) : o.min a b = o'.min a b ∧ o.max a b = o'.max a b := by
  unfold Operators.min Operators.max symbolicMin symbolicMax valueMin valueMax
  rw [h, h']
  exact ⟨rfl, rfl⟩

end Operators

/-- **The operators of values return**: for given values a greater depth than some depth changes
nothing. -/
theorem ValueRangeInfo.operators_settle (fold : ℤ → Option ℤ) (a b : Value) :
    ∃ depth, ∀ d, depth ≤ d →
      let o := (ValueRangeInfo.mk fold d).operators
      let o' := (ValueRangeInfo.mk fold depth).operators
      o.add a b = o'.add a b ∧ o.sub a b = o'.sub a b ∧ o.neg a = o'.neg a ∧
        o.min a b = o'.min a b ∧ o.max a b = o'.max a b := by
  have h := settledBelow fold (a.leaves + b.leaves + 1)
  obtain ⟨d₁, ha⟩ := (h.call false a b (by omega)).agree
  obtain ⟨d₂, hs⟩ := (h.call true a b (by omega)).agree
  obtain ⟨d₃, hs'⟩ := (h.call true b a (by omega)).agree
  obtain ⟨d₄, hn⟩ := (h.neg a (by omega)).agree
  obtain ⟨e, he⟩ : ∃ e, e = d₁ + d₂ + d₃ + d₄ := ⟨_, rfl⟩
  refine ⟨e, fun d hd => ⟨ha d e (by omega) (by omega), hs d e (by omega) (by omega),
    hn d e (by omega) (by omega), ?_⟩⟩
  exact extremes_congr (hs d e (by omega) (by omega)) (hs' d e (by omega) (by omega))

end DartSdk.Compiler.ValueRange
