import DartSdk.Compiler.Ssa.ValueRange.Markers

/-!
# The range of a loop phi

`LoopUpdateRecognizer`, and what its range says of the values that a loop phi takes.  An instruction is
given with the instructions it is computed from, as far as the recognizer looks; the loop phi and
instructions of other kinds are `other`.

The marker of the loop phi survives a minimum or a maximum with a value of the right sign, whatever the
start of the loop is.  So an inner phi that joins the loop phi with another value may lose the other one
(`run_loses_constant`).  The range is right

* if no inner phi joins a value that depends on the loop phi with one that does not, or
* if zero is in the start range and the ranges of the other instructions are constant,

for every number of iterations (`run_sound`).
-/

namespace DartSdk.Compiler.ValueRange

open ExtInt List Option Function Operators

inductive HInstruction
  | phi (id : ℕ) (isInteger isLoopHeader : Bool) (inputs : List HInstruction)
  | check (id : ℕ) (isInteger : Bool) (checkedInput : HInstruction)
  | add (id : ℕ) (isInteger : Bool) (left right : HInstruction)
  | subtract (id : ℕ) (isInteger : Bool) (left right : HInstruction)
  | other (id : ℕ) (isInteger : Bool)

namespace HInstruction

def id : HInstruction → ℕ
  | .phi id _ _ _ | .check id _ _ | .add id _ _ _ | .subtract id _ _ _ | .other id _ => id

end HInstruction

namespace LoopUpdateRecognizer

variable (info : ValueRangeInfo) (ranges : ℕ → Option Range)

/-- `visit`, where `accept` is the range that the method for the kind of the instruction computes. -/
def lookup (isInteger : Bool) (id : ℕ) (accept : Option Range) : Option Range :=
  if isInteger then
    match ranges id with
    | some range => some range
    | none => accept
  else none

def handleBinaryOperation (operation : Range → Range → Range) (leftRange rightRange : Option Range) :
    Option Range :=
  match leftRange, rightRange with
  | some leftRange, some rightRange => some (operation leftRange rightRange)
  | _, _ => none

mutual

def visit : HInstruction → Option Range
  | .phi id isInteger isLoopHeader inputs =>
    lookup ranges isInteger id (if isLoopHeader then none else visitInputs none inputs)
  | .check id isInteger checkedInput => lookup ranges isInteger id (visit checkedInput)
  | .add id isInteger left right =>
    lookup ranges isInteger id (handleBinaryOperation (Range.add info) (visit left) (visit right))
  | .subtract id isInteger left right =>
    lookup ranges isInteger id (handleBinaryOperation (Range.sub info) (visit left) (visit right))
  | .other id isInteger => lookup ranges isInteger id none

/-- The loop of `visitPhi`. -/
def visitInputs (phiRange : Option Range) : List HInstruction → Option Range
  | [] => phiRange
  | input :: inputs =>
    match visit input with
    | none => none
    | some inputRange =>
      match phiRange with
      | none => visitInputs (some inputRange) inputs
      | some phiRange => visitInputs (some (phiRange.union info inputRange)) inputs

end

/-- The range map during a run. -/
def marked (loopPhi : ℕ) : ℕ → Option Range := Function.update ranges loopPhi (some Range.marker)

/-- `run` of a loop phi with the inputs `start` and `update`. -/
def run (loopPhi start : ℕ) (update : HInstruction) : Option Range :=
  match visit info (marked ranges loopPhi) update with
  | none => none
  | some updateRange =>
    match Function.update ranges loopPhi none start with
    | none => none
    | some startRange =>
      let low :=
        if updateRange.lower.isMarkerValue then startRange.lower
        else info.operators.min updateRange.lower startRange.lower
      let up :=
        if updateRange.upper.isMarkerValue then startRange.upper
        else info.operators.max updateRange.upper startRange.upper
      some (Range.normalize low up)

mutual

/-- The instructions with a range that the recognizer comes to. -/
def ranged : HInstruction → List ℕ
  | .phi id _ _ inputs => if (ranges id).isSome then [id] else rangedInputs inputs
  | .check id _ checkedInput => if (ranges id).isSome then [id] else ranged checkedInput
  | .add id _ left right => if (ranges id).isSome then [id] else ranged left ++ ranged right
  | .subtract id _ left right => if (ranges id).isSome then [id] else ranged left ++ ranged right
  | .other id _ => if (ranges id).isSome then [id] else []

def rangedInputs : List HInstruction → List ℕ
  | [] => []
  | input :: inputs => ranged input ++ rangedInputs inputs

end

/-- Whether the instruction depends on the loop phi. -/
def uses (loopPhi : ℕ) (instruction : HInstruction) : Bool := loopPhi ∈ ranged ranges instruction

mutual

/-- No inner phi joins values that depend on the loop phi with values that do not. -/
def uniform (loopPhi : ℕ) : HInstruction → Bool
  | .phi id _ _ inputs =>
    (ranges id).isSome ||
      uniformInputs loopPhi inputs &&
        (inputs.all (uses ranges loopPhi) || inputs.all fun input => !uses ranges loopPhi input)
  | .check id _ checkedInput => (ranges id).isSome || uniform loopPhi checkedInput
  | .add id _ left right => (ranges id).isSome || uniform loopPhi left && uniform loopPhi right
  | .subtract id _ left right => (ranges id).isSome || uniform loopPhi left && uniform loopPhi right
  | .other _ _ => true

def uniformInputs (loopPhi : ℕ) : List HInstruction → Bool
  | [] => true
  | input :: inputs => uniform loopPhi input && uniformInputs loopPhi inputs

end

/-- The values an instruction can have in one iteration, given those of the instructions with a range. -/
inductive Computes (values : ℕ → ℤ) : HInstruction → ℤ → Prop
  | ranged {instruction : HInstruction} (hsome : (ranges instruction.id).isSome = true) :
    Computes values instruction (values instruction.id)
  | phi {id : ℕ} {isInteger isLoopHeader : Bool} {inputs : List HInstruction} {input : HInstruction}
    {z : ℤ} (hnone : ranges id = none) (hmem : input ∈ inputs) (hz : Computes values input z) :
    Computes values (.phi id isInteger isLoopHeader inputs) z
  | check {id : ℕ} {isInteger : Bool} {checkedInput : HInstruction} {z : ℤ}
    (hnone : ranges id = none) (hz : Computes values checkedInput z) :
    Computes values (.check id isInteger checkedInput) z
  | add {id : ℕ} {isInteger : Bool} {left right : HInstruction} {x y : ℤ}
    (hnone : ranges id = none) (hx : Computes values left x) (hy : Computes values right y) :
    Computes values (.add id isInteger left right) (x + y)
  | subtract {id : ℕ} {isInteger : Bool} {left right : HInstruction} {x y : ℤ}
    (hnone : ranges id = none) (hx : Computes values left x) (hy : Computes values right y) :
    Computes values (.subtract id isInteger left right) (x - y)

/-- The instructions with a range that the update depends on stay within their ranges, whose bounds name
instructions outside the loop. -/
def InRanges (ρ : ℕ → ℤ) (loopPhi : ℕ) (update : HInstruction) (values : ℕ → ℤ) : Prop :=
  ∀ i ∈ ranged (marked ranges loopPhi) update, ∀ range, i ≠ loopPhi → ranges i = some range →
    range.Contains ρ (values i)

/-- The values of the loop phi. -/
inductive Iterates (ρ : ℕ → ℤ) (loopPhi : ℕ) (update : HInstruction) (start : ℤ) : ℤ → Prop
  | start (values : ℕ → ℤ) (hranges : InRanges ranges ρ loopPhi update values) :
    Iterates ρ loopPhi update start start
  | next {value result : ℤ} (values : ℕ → ℤ) (hvalue : Iterates ρ loopPhi update start value)
    (hphi : values loopPhi = value) (hranges : InRanges ranges ρ loopPhi update values)
    (hresult : Computes (marked ranges loopPhi) values update result) :
    Iterates ρ loopPhi update start result

/-! ### Bounds of one side -/

/-- The integer lies on the right side of the bound. -/
def Beyond (positive : Bool) (b : ExtInt) (x : ℤ) : Prop :=
  if positive then .int x ≤ b else b ≤ .int x

/-- A value of a side bounds the integer, where the marker means the bound `m` of the loop phi. -/
def Bounds (ρ : ℕ → ℤ) (m : Bool → ExtInt) (positive : Bool) (x : ℤ) (v : Value) : Prop :=
  (v = .marker positive ∧ Beyond positive (m positive) x) ∨
    ∃ b, v.eval ρ = some b ∧ Beyond positive b x

/-- `Unknown` becomes the infinity of the side in a range. -/
def norm (positive : Bool) (v : Value) : Value := if v = .unknown then infinite positive else v

/-- The sum or, if `n`, the difference. -/
def apply (o : Operators) (n : Bool) (u v : Value) : Value := cond n (o.sub u v) (o.add u v)

/-- The side of the right operand. -/
def side (n positive : Bool) : Bool := cond n (!positive) positive

section Sides

variable {info : ValueRangeInfo} {ρ : ℕ → ℤ} {m : Bool → ExtInt} {n p : Bool} {a b c : ExtInt} {x y : ℤ}
  {u v : Value} {o : Operators}

theorem beyond_infinity : Beyond p (infinity p) x := by
  cases p <;> simp [Beyond, infinity]

theorem beyond_ne (h : Beyond p b x) : b ≠ infinity (!p) := by
  cases p <;> cases b <;> simp_all [Beyond, infinity]

theorem beyond_add (hb : Beyond p b x) (hc : Beyond p c y) :
    Compatible b c ∧ Beyond p (b + c) (x + y) := by
  cases p with
  | true => exact ⟨compatible_of_ge hb hc, int_le_add hb hc⟩
  | false => exact ⟨compatible_of_le hb hc, add_le_int hb hc⟩

theorem beyond_signed (hc : Beyond (side n p) c y) : Beyond p (cond n (-c) c) (cond n (-y) y) := by
  cases n with
  | false => exact hc
  | true =>
    cases p with
    | true => exact int_le_neg hc
    | false => exact neg_le_int hc

theorem beyond_trans (hb : Beyond p b x) (hab : if p then b ≤ a else a ≤ b) : Beyond p a x := by
  cases p with
  | true => exact le_trans (show ExtInt.int x ≤ b from hb) hab
  | false => exact le_trans (show a ≤ b from hab) hb

theorem beyond_inward (hb : Beyond p b x) (hin : Inward p c) (hc : Beyond p c y) : Beyond p b (x + y) := by
  have hz : Beyond p (.int 0) y := beyond_trans hc (by cases p <;> exact hin)
  have := (beyond_add hb hz).2
  rwa [add_int_zero] at this

theorem norm_cases (v : Value) : (v = .unknown ∧ norm p v = infinite p) ∨ norm p v = v := by
  unfold norm
  split
  · next h => exact .inl ⟨h, rfl⟩
  · exact .inr rfl

theorem bounds_infinite : Bounds ρ m p x (infinite p) := .inr ⟨infinity p, eval_infinite, beyond_infinity⟩

theorem bounds_of_gives (h : Gives ρ b v) (hb : Beyond p b x) : Bounds ρ m p x (norm p v) := by
  rcases norm_cases v with ⟨-, hn⟩ | hn <;> rw [hn]
  · exact bounds_infinite
  · rcases h with rfl | h
    · rw [show Value.unknown = infinite p from hn ▸ rfl]
      exact bounds_infinite
    · exact .inr ⟨b, h, hb⟩

theorem norm_absorbed (h : Absorbed p v) : norm p v = infinite p := by
  rcases h with rfl | rfl
  · rfl
  · cases p <;> rfl

theorem bounds_of_shifts (h : Shifts u p c v) (hx : Beyond p (m p) x) (hc : Beyond p c y) :
    Bounds ρ m p (x + y) (norm p v) := by
  rcases h with h | ⟨rfl, rfl, hin⟩
  · rw [norm_absorbed h]
    exact bounds_infinite
  · exact .inl ⟨rfl, beyond_inward hx hin hc⟩

theorem apply_gives (ho : o.Sound ρ) (hu : u.eval ρ = some a) (hv : v.eval ρ = some b)
    (hc : Compatible a (cond n (-b) b)) : Gives ρ (a + cond n (-b) b) (apply o n u v) := by
  cases n with
  | false => exact ho.add hu hv hc
  | true => exact ho.sub hu hv hc

section

variable (hm : o.Marks ρ)

include hm

theorem apply_markers : apply o n (.marker p) (.marker (side n p)) = .unknown := by
  cases n with
  | false => exact hm.marker_add_marker p _
  | true => exact hm.marker_sub_marker p _

theorem special_apply (hu : Special p u) (hv : v.eval ρ = some b) :
    Shifts u p (cond n (-b) b) (apply o n u v) := by
  cases n with
  | false => exact hm.special_add hu hv
  | true => exact hm.special_sub hu hv

theorem sub_absorbed (hu : u.eval ρ = some a) (ha : a ≠ infinity (!p)) (hv : Special (!p) v) :
    Absorbed p (apply o true u v) := by
  have hab : Absorbed (!!p) (apply o true u v) := hm.sub_special hv hu ha
  rwa [Bool.not_not] at hab

theorem apply_special (hu : u.eval ρ = some a) (ha : a ≠ infinity (!p)) (hv : Special (side n p) v) :
    Shifts v p a (apply o n u v) := by
  cases n with
  | false => exact hm.add_special hv hu ha
  | true => exact .inl (sub_absorbed hm hu ha hv)

theorem bounds_apply (ho : o.Sound ρ) (hu : Bounds ρ m p x u) (hv : Bounds ρ m (side n p) y v) :
    Bounds ρ m p (x + cond n (-y) y) (norm p (apply o n u v)) := by
  rcases hu with ⟨rfl, hx⟩ | ⟨a, ha, hx⟩ <;> rcases hv with ⟨rfl, hy⟩ | ⟨b, hb, hy⟩
  · rw [apply_markers hm]
    exact bounds_infinite
  · exact bounds_of_shifts (special_apply hm (.inl rfl) hb) hx (beyond_signed hy)
  · cases n with
    | false =>
      rw [Int.add_comm]
      exact bounds_of_shifts (hm.add_special (.inl rfl) ha (beyond_ne hx)) hy hx
    | true =>
      dsimp only [side, cond_true]
      rw [norm_absorbed (sub_absorbed hm ha (beyond_ne hx) (.inl rfl))]
      exact bounds_infinite
  · obtain ⟨hc, hxy⟩ := beyond_add hx (beyond_signed hy)
    exact bounds_of_gives (apply_gives ho ha hb hc) hxy

end

theorem join_cases (ho : o.Sound ρ) (ha : u.eval ρ = some a) (hb : v.eval ρ = some b) :
    o.join p u v = .unknown ∨ (o.join p u v = u ∧ if p then b ≤ a else a ≤ b) ∨
      (o.join p u v = v ∧ if p then a ≤ b else b ≤ a) := by
  cases p with
  | false => exact (extremes_cases ho ha hb).1
  | true => exact (extremes_cases ho ha hb).2

/-- The join of two values that are not markers is one of them, and bounds what either of them bounds. -/
theorem join_of_eval (ho : o.Sound ρ) (ha : u.eval ρ = some a) (hb : v.eval ρ = some b) :
    o.join p u v = .unknown ∨ ((o.join p u v = u ∨ o.join p u v = v) ∧
      ∃ c, (o.join p u v).eval ρ = some c ∧ ∀ z, Beyond p a z ∨ Beyond p b z → Beyond p c z) := by
  rcases join_cases ho ha hb with hu | ⟨he, hle⟩ | ⟨he, hle⟩
  · exact .inl hu
  · exact .inr ⟨.inl he, a, (congrArg _ he).trans ha, fun z hz =>
      hz.elim (fun h => h) fun h => beyond_trans h hle⟩
  · exact .inr ⟨.inr he, b, (congrArg _ he).trans hb, fun z hz =>
      hz.elim (fun h => beyond_trans h hle) fun h => h⟩

theorem Bounds.of_marker (h : Bounds ρ m p x (.marker p)) : Beyond p (m p) x := by
  rcases h with ⟨-, h⟩ | ⟨b, hb, -⟩
  · exact h
  · exact nomatch hb

theorem Bounds.of_ne (h : Bounds ρ m p x v) (hv : v ≠ .marker p) :
    ∃ b, v.eval ρ = some b ∧ Beyond p b x := h.resolve_left fun ⟨e, _⟩ => hv e

theorem special_norm (h : Shifts u p c v) : Special p (norm p v) := by
  rcases h with h | ⟨rfl, rfl, -⟩
  · exact .inr (norm_absorbed h)
  · exact .inl rfl

theorem special_left (hm : o.Marks ρ) (hu : Special p u) (hv : Bounds ρ m (side n p) y v) :
    Special p (norm p (apply o n u v)) := by
  rcases hv with ⟨rfl, -⟩ | ⟨b, hb, -⟩
  · rcases hu with rfl | rfl
    · rw [apply_markers hm]
      exact .inr rfl
    · exact special_norm (apply_special hm eval_infinite (beyond_ne beyond_infinity (x := 0)) (.inl rfl))
  · exact special_norm (special_apply hm hu hb)

theorem special_right (hm : o.Marks ρ) (hu : Bounds ρ m p x u) (hv : Special (side n p) v) :
    Special p (norm p (apply o n u v)) := by
  rcases hu with ⟨rfl, -⟩ | ⟨a, ha, hx⟩
  · rcases hv with rfl | rfl
    · rw [apply_markers hm]
      exact .inr rfl
    · exact special_norm (special_apply hm (.inl rfl) eval_infinite)
  · exact special_norm (apply_special hm ha (beyond_ne hx) hv)

theorem join_special_bounds (hu : Special p u) (hv : Special p v) (hx : Bounds ρ m p x u)
    (hy : Bounds ρ m p y v) :
    Special p (norm p (o.join p u v)) ∧ Bounds ρ m p x (norm p (o.join p u v)) ∧
      Bounds ρ m p y (norm p (o.join p u v)) := by
  obtain ⟨hs, hmr⟩ := join_special (o := o) hu hv
  rcases hs with he | he
  · obtain ⟨rfl, rfl⟩ := hmr he
    rw [he]
    exact ⟨.inl rfl, hx, hy⟩
  · rw [norm_absorbed (.inr he)]
    exact ⟨.inr rfl, bounds_infinite, bounds_infinite⟩

/-- The join of two values that are not markers is the infinity of the side or one of them. -/
theorem join_bounds {P : Value → Prop} (ho : o.Sound ρ) (hu : u ≠ .marker p) (hv : v ≠ .marker p)
    (hx : Bounds ρ m p x u) (hy : Bounds ρ m p y v) (hPu : P u) (hPv : P v) (hP : P (infinite p)) :
    P (norm p (o.join p u v)) ∧ Bounds ρ m p x (norm p (o.join p u v)) ∧
      Bounds ρ m p y (norm p (o.join p u v)) := by
  obtain ⟨a, ha, hx⟩ := hx.of_ne hu
  obtain ⟨b, hb, hy⟩ := hy.of_ne hv
  rcases join_of_eval ho ha hb with hun | ⟨he, c, hc, hz⟩
  · rw [hun]
    exact ⟨hP, bounds_infinite, bounds_infinite⟩
  have hn : norm p (o.join p u v) = o.join p u v := by
    refine if_neg fun hun => ?_
    rw [hun] at hc
    exact nomatch hc
  rw [hn]
  refine ⟨?_, .inr ⟨c, hc, hz x (.inl hx)⟩, .inr ⟨c, hc, hz y (.inr hy)⟩⟩
  rcases he with he | he <;> rw [he]
  · exact hPu
  · exact hPv

end Sides

/-! ### What is known of the values that the recognizer computes -/

/-- What the values of a side look like, for instructions that depend on the loop phi and for others.  If
`mixed`, an inner phi may join the two. -/
structure Mode (ρ : ℕ → ℤ) (m : Bool → ExtInt) (o : Operators) (mixed : Bool)
    (shape : Bool → Bool → Value → Prop) : Prop where
  sound : o.Sound ρ
  marks : o.Marks ρ
  apply {n p u u' : Bool} {x y : ℤ} {a b : Value} : shape p u a → shape (side n p) u' b →
    Bounds ρ m p x a → Bounds ρ m (side n p) y b → shape p (u || u') (norm p (apply o n a b))
  join {p u u' : Bool} {x y : ℤ} {a b : Value} : mixed = true ∨ u' = u → shape p u a → shape p u' b →
    Bounds ρ m p x a → Bounds ρ m p y b →
    shape p (u || u') (norm p (o.join p a b)) ∧ Bounds ρ m p x (norm p (o.join p a b)) ∧
      Bounds ρ m p y (norm p (o.join p a b))

/-- What depends on the loop phi is special, and nothing else has markers. -/
def uniformShape (p u : Bool) (v : Value) : Prop := if u then Special p v else v ≠ .marker p

/-- All values are constant or special. -/
def constantShape (p _ : Bool) (v : Value) : Prop := Special p v ∨ ∃ n, v = .int n

section Modes

variable {ρ : ℕ → ℤ} {m : Bool → ExtInt} {o : Operators}

theorem ne_marker_of_gives {p : Bool} {b : ExtInt} {v : Value} (h : Gives ρ b v) :
    norm p v ≠ .marker p := by
  intro hn
  rcases norm_cases v with ⟨-, he⟩ | he
  · exact infinite_ne_marker (he.symm.trans hn)
  · rw [he] at hn
    subst hn
    rcases h with h | h <;> exact nomatch h

theorem uniform_mode (ho : o.Sound ρ) (hm : o.Marks ρ) : Mode ρ m o false uniformShape where
  sound := ho
  marks := hm
  apply := by
    intro n p u u' x y a b ha hb hx hy
    cases u with
    | true => exact special_left hm ha hy
    | false =>
      cases u' with
      | true => exact special_right hm hx hb
      | false =>
        obtain ⟨c, hc, hcx⟩ := hx.of_ne ha
        obtain ⟨d, hd, hdy⟩ := hy.of_ne hb
        exact ne_marker_of_gives (apply_gives ho hc hd (beyond_add hcx (beyond_signed hdy)).1)
  join := by
    intro p u u' x y a b hmx ha hb hx hy
    obtain rfl := hmx.resolve_left nofun
    cases u' with
    | true => exact join_special_bounds ha hb hx hy
    | false => exact join_bounds ho ha hb hx hy ha hb infinite_ne_marker

theorem constantShape_infinite {p u : Bool} : constantShape p u (infinite p) := .inl (.inr rfl)

/-- A constant joined with the marker: if the marker stays, the constant lies inward of zero. -/
theorem join_constant (hm : o.Marks ρ) {p : Bool} {x y n : ℤ} (hz : Beyond p (m p) 0)
    (hx : Beyond p (m p) x) (hy : Bounds ρ m p y (.int n)) {v : Value}
    (hv : v = o.join p (.marker p) (.int n)) :
    Special p (norm p v) ∧ Bounds ρ m p x (norm p v) ∧ Bounds ρ m p y (norm p v) := by
  subst hv
  rcases join_marker_int hm n with he | ⟨he, hin⟩ <;> rw [he]
  · exact ⟨.inr rfl, bounds_infinite, bounds_infinite⟩
  obtain ⟨b, hb, hby⟩ := hy.of_ne nofun
  obtain rfl := some.inj hb
  have := beyond_inward hz hin hby
  rw [Int.zero_add] at this
  exact ⟨.inl rfl, .inl ⟨rfl, hx⟩, .inl ⟨rfl, this⟩⟩

theorem constant_mode {fold : ℤ → Option ℤ} {depth : ℕ} (hf : ExactFold fold)
    (hz : ∀ p, Beyond p (m p) 0) : Mode ρ m (tie fold depth) true constantShape where
  sound := tie_sound hf depth
  marks := tie_marks hf depth
  apply := by
    intro n p u u' x y a b ha hb hx hy
    have hm : (tie fold depth).Marks ρ := tie_marks hf depth
    rcases ha with ha | ⟨i, rfl⟩
    · exact .inl (special_left hm ha hy)
    rcases hb with hb | ⟨k, rfl⟩
    · exact .inl (special_right hm hx hb)
    have hint : apply (tie fold depth) n (.int i) (.int k) = .unknown ∨
        ∃ j, apply (tie fold depth) n (.int i) (.int k) = .int j := by
      cases n with
      | false => exact (tie_int depth i k).1
      | true => exact (tie_int depth i k).2
    rcases hint with he | ⟨j, he⟩ <;> rw [he]
    · exact constantShape_infinite
    · exact .inr ⟨j, rfl⟩
  join := by
    intro p u u' x y a b _ ha hb hx hy
    have ho : (tie fold depth).Sound ρ := tie_sound hf depth
    have hm : (tie fold depth).Marks ρ := tie_marks hf depth
    by_cases hma : a = .marker p
    · subst hma
      rcases hb with hb | ⟨k, rfl⟩
      · exact (join_special_bounds (.inl rfl) hb hx hy).imp_left .inl
      · exact (join_constant hm (hz p) hx.of_marker hy rfl).imp_left .inl
    by_cases hmb : b = .marker p
    · subst hmb
      rcases ha with ha | ⟨n, rfl⟩
      · exact (join_special_bounds ha (.inl rfl) hx hy).imp_left .inl
      · obtain ⟨hs, hby, hbx⟩ := join_constant hm (hz p) hy.of_marker hx
          (join_int_marker n)
        exact ⟨.inl hs, hbx, hby⟩
    exact join_bounds ho hma hmb hx hy ha hb constantShape_infinite

end Modes

def bound (positive : Bool) (range : Range) : Value := if positive then range.upper else range.lower

/-- Both bounds of the range bound the integer and look as they should. -/
def Fits (ρ : ℕ → ℤ) (m : Bool → ExtInt) (shape : Bool → Bool → Value → Prop) (u : Bool) (x : ℤ)
    (range : Range) : Prop := ∀ p, Bounds ρ m p x (bound p range) ∧ shape p u (bound p range)

section Visit

variable {info : ValueRangeInfo} {ranges : ℕ → Option Range} {ρ : ℕ → ℤ} {m : Bool → ExtInt}
  {mixed : Bool} {shape : Bool → Bool → Value → Prop} {values : ℕ → ℤ} {loopPhi : ℕ}

theorem bound_normalize (p : Bool) (low up : Value) :
    bound p (Range.normalize low up) = norm p (if p then up else low) := by cases p <;> rfl

theorem bound_apply (n p : Bool) (r r' : Range) :
    bound p (cond n (r.sub info r') (r.add info r')) =
      norm p (apply info.operators n (bound p r) (bound (side n p) r')) := by
  cases n <;> cases p <;> rfl

theorem bound_union (p : Bool) (r r' : Range) :
    bound p (r.union info r') = norm p (info.operators.join p (bound p r) (bound p r')) := by
  cases p <;> rfl

theorem lookup_eq_some {isInteger : Bool} {id : ℕ} {accept : Option Range} {range : Range}
    (h : lookup ranges isInteger id accept = some range) :
    ranges id = some range ∨ (ranges id = none ∧ accept = some range) := by
  unfold lookup at h
  split at h
  · split at h
    · next r hr => exact .inl (hr.trans h)
    · next hr => exact .inr ⟨hr, h⟩
  · exact nomatch h

theorem handleBinaryOperation_eq_some {operation : Range → Range → Range} {l r : Option Range}
    {range : Range} (h : handleBinaryOperation operation l r = some range) :
    ∃ left right, l = some left ∧ r = some right ∧ range = operation left right := by
  unfold handleBinaryOperation at h
  split at h
  · next left right => exact ⟨left, right, rfl, rfl, (some.inj h).symm⟩
  · exact nomatch h

section

variable (info ranges ρ m mixed shape values loopPhi)

/-- The ranges of these instructions are right. -/
def FitAll (ids : List ℕ) : Prop :=
  ∀ i ∈ ids, ∀ range, ranges i = some range → Fits ρ m shape (i == loopPhi) (values i) range

/-- The instruction has values, and the range is right for all of them. -/
def Covered (instruction : HInstruction) (range : Range) : Prop :=
  (∃ x, Computes ranges values instruction x) ∧
    ∀ x, Computes ranges values instruction x →
      Fits ρ m shape (uses ranges loopPhi instruction) x range

def Recognized (instruction : HInstruction) : Prop :=
  FitAll ranges ρ m shape values loopPhi (ranged ranges instruction) →
  mixed = true ∨ uniform ranges loopPhi instruction = true →
  ∀ range, visit info ranges instruction = some range →
    Covered ranges ρ m shape values loopPhi instruction range

end

theorem recognized_ranged {instruction : HInstruction} {range : Range}
    (hr : ranges instruction.id = some range)
    (hrn : ranged ranges instruction = [instruction.id])
    (hlf : FitAll ranges ρ m shape values loopPhi (ranged ranges instruction)) :
    Covered ranges ρ m shape values loopPhi instruction range := by
  have hs : (ranges instruction.id).isSome := by rw [hr]; rfl
  have hu : uses ranges loopPhi instruction = (instruction.id == loopPhi) := by
    rw [uses, hrn]
    simp [Bool.beq_eq_decide_eq, eq_comm]
  refine ⟨⟨_, .ranged hs⟩, fun x hx => ?_⟩
  rw [hu]
  have hv : x = values instruction.id := by
    cases hx with
    | ranged => rfl
    | phi hn | check hn | add hn | _ hn =>
      exact absurd (hn.symm.trans hr) nofun
  rw [hv]
  exact hlf _ (by rw [hrn]; exact mem_singleton_self _) range hr

section

variable (hmd : Mode ρ m info.operators mixed shape)

include hmd

/-- An instruction with two operands, given what is known of the operands. -/
theorem recognized_binary (n : Bool) {instruction left right : HInstruction} {isInteger : Bool}
    (hv : visit info ranges instruction = lookup ranges isInteger instruction.id
      (handleBinaryOperation (fun r r' => cond n (r.sub info r') (r.add info r'))
        (visit info ranges left) (visit info ranges right)))
    (hrn : ranged ranges instruction = if (ranges instruction.id).isSome then [instruction.id]
      else ranged ranges left ++ ranged ranges right)
    (hu : uniform ranges loopPhi instruction = ((ranges instruction.id).isSome ||
      uniform ranges loopPhi left && uniform ranges loopPhi right))
    (hc : ranges instruction.id = none → ∀ z, Computes ranges values instruction z ↔
      ∃ x y, Computes ranges values left x ∧ Computes ranges values right y ∧ z = x + cond n (-y) y)
    (hlt : Recognized info ranges ρ m mixed shape values loopPhi left)
    (hrg : Recognized info ranges ρ m mixed shape values loopPhi right) :
    Recognized info ranges ρ m mixed shape values loopPhi instruction := by
  intro hlf hmx range hra
  rw [hv] at hra
  rcases lookup_eq_some hra with hs | ⟨hn, haccept⟩
  · exact recognized_ranged hs (by simp [hrn, hs]) hlf
  rw [hn] at hrn hu
  have hrn : ranged ranges instruction = ranged ranges left ++ ranged ranges right := hrn
  rw [hrn] at hlf
  have hmx : mixed ∨ (uniform ranges loopPhi left = true ∧
    uniform ranges loopPhi right = true) := by simpa [hu] using hmx
  obtain ⟨leftRange, rightRange, hl, hr, rfl⟩ := handleBinaryOperation_eq_some haccept
  obtain ⟨hlf, hle'⟩ := forall_mem_append.mp hlf
  obtain ⟨⟨x₀, hx₀⟩, hlt⟩ := hlt hlf (hmx.imp_right And.left) leftRange hl
  obtain ⟨⟨y₀, hy₀⟩, hrg⟩ := hrg hle' (hmx.imp_right And.right) rightRange hr
  have hus : uses ranges loopPhi instruction =
      (uses ranges loopPhi left || uses ranges loopPhi right) := by
    simp [uses, hrn]
  refine ⟨⟨_, (hc hn _).mpr ⟨x₀, y₀, hx₀, hy₀, rfl⟩⟩, fun z hz => ?_⟩
  obtain ⟨x, y, hx, hy, rfl⟩ := (hc hn z).mp hz
  rw [hus]
  intro p
  rw [bound_apply]
  exact ⟨bounds_apply hmd.marks hmd.sound (hlt x hx p).1 (hrg y hy _).1,
    hmd.apply (hlt x hx p).2 (hrg y hy _).2 (hlt x hx p).1 (hrg y hy _).1⟩

theorem Mode.fits_union {u u' : Bool} {x y : ℤ} {r r' : Range}
    (hmx : mixed ∨ u' = u) (hx : Fits ρ m shape u x r)
    (hy : Fits ρ m shape u' y r') :
    Fits ρ m shape (u || u') x (r.union info r') ∧ Fits ρ m shape (u || u') y (r.union info r') := by
  have h := fun p => hmd.join hmx (hx p).2 (hy p).2 (hx p).1 (hy p).1
  constructor
  · intro p
    rw [bound_union]
    exact ⟨(h p).2.1, (h p).1⟩
  · intro p
    rw [bound_union]
    exact ⟨(h p).2.2, (h p).1⟩

/-- One more input of a phi: `acc` is the range of the inputs before, whose values satisfy `P`. -/
theorem recognized_inputs {inputs : List HInstruction} {acc range : Range} {u : Bool} {P : ℤ → Prop}
    {x : ℤ}
    (hr : ∀ input ∈ inputs, Recognized info ranges ρ m mixed shape values loopPhi input)
    (hlf : FitAll ranges ρ m shape values loopPhi (rangedInputs ranges inputs))
    (hmx : mixed ∨ (uniformInputs ranges loopPhi inputs = true ∧
      ∀ input ∈ inputs, uses ranges loopPhi input = u))
    (hP : ∃ x, P x) (ha : ∀ x, P x → Fits ρ m shape u x acc)
    (hv : visitInputs info ranges (some acc) inputs = some range)
    (hx : P x ∨ ∃ input ∈ inputs, Computes ranges values input x) :
    Fits ρ m shape (u || decide (loopPhi ∈ rangedInputs ranges inputs)) x range := by
  induction inputs generalizing acc u P with
  | nil =>
    rw [visitInputs] at hv
    obtain rfl := some.inj hv
    rcases hx with hx | ⟨_, hmem, _⟩
    · simpa [rangedInputs] using ha x hx
    · exact nomatch hmem
  | cons input inputs ih =>
    rw [visitInputs] at hv
    split at hv
    · exact nomatch hv
    next inputRange hin =>
    obtain ⟨hr, hr'⟩ := forall_mem_cons.mp hr
    obtain ⟨hlf, hl'⟩ := forall_mem_append.mp hlf
    have hmi₁ : mixed ∨ uniform ranges loopPhi input :=
      hmx.imp_right fun h => (Bool.and_eq_true_iff.mp h.1).1
    obtain ⟨⟨y, hy⟩, hfits⟩ := hr hlf hmi₁ inputRange hin
    obtain ⟨z, hz⟩ := hP
    -- The range so far and that of the input are joined; both have values.
    have hs : mixed ∨ uses ranges loopPhi input = u :=
      hmx.imp_right fun h => h.2 input mem_cons_self
    have hu : (u || decide (loopPhi ∈ rangedInputs ranges (input :: inputs))) =
        (u || uses ranges loopPhi input || decide (loopPhi ∈ rangedInputs ranges inputs)) := by
      simp [rangedInputs, uses, Bool.or_assoc]
    rw [hu]
    refine ih (P := fun x => P x ∨ Computes ranges values input x) hr' hl'
      (hmx.imp_right fun h => ⟨(Bool.and_eq_true_iff.mp h.1).2, fun i hi => by
        rw [h.2 i (mem_cons_of_mem _ hi), h.2 input mem_cons_self, Bool.or_self]⟩)
      ⟨z, .inl hz⟩
      (fun x hx => hx.elim (fun hx => (hmd.fits_union hs (ha x hx) (hfits y hy)).1)
        fun hx => (hmd.fits_union hs (ha z hz) (hfits x hx)).2) hv ?_
    rcases hx with hx | ⟨e, he, hx⟩
    · exact .inl (.inl hx)
    · rcases mem_cons.mp he with rfl | he
      · exact .inl (.inr hx)
      · exact .inr ⟨e, he, hx⟩

omit hmd in
theorem uses_of_uniform {inputs : List HInstruction} {input : HInstruction}
    (h : (inputs.all (uses ranges loopPhi) || inputs.all fun input => !uses ranges loopPhi input) = true)
    (hmm : input ∈ inputs) :
    ∀ other ∈ inputs, uses ranges loopPhi other = uses ranges loopPhi input := by
  intro other ho
  rcases Bool.or_eq_true_iff.mp h with h | h
  all_goals
    simp only [List.all_eq_true, Bool.not_eq_true'] at h
    rw [h input hmm, h other ho]

theorem recognized_phi {id : ℕ} {isInteger isLoopHeader : Bool} {inputs : List HInstruction}
    (hrc : ∀ input ∈ inputs, Recognized info ranges ρ m mixed shape values loopPhi input) :
    Recognized info ranges ρ m mixed shape values loopPhi (.phi id isInteger isLoopHeader inputs) := by
  intro hlf hmx range hv
  rw [visit] at hv
  rcases lookup_eq_some hv with hs | ⟨hn, haccept⟩
  · exact recognized_ranged hs (by simp [ranged, HInstruction.id, hs]) hlf
  have hr : ranged ranges (.phi id isInteger isLoopHeader inputs) = rangedInputs ranges inputs := by
    simp [ranged, hn]
  rw [hr] at hlf
  have hu : mixed ∨ (uniformInputs ranges loopPhi inputs = true ∧
      (inputs.all (uses ranges loopPhi) ||
        inputs.all fun input => !uses ranges loopPhi input) = true) := by
    rw [uniform, hn] at hmx
    simpa using hmx
  split at haccept
  · exact nomatch haccept
  cases inputs with
  | nil => exact nomatch haccept
  | cons input inputs =>
    rw [visitInputs] at haccept
    split at haccept
    · exact nomatch haccept
    next inputRange hin =>
    obtain ⟨hrc, hrc'⟩ := forall_mem_cons.mp hrc
    obtain ⟨hlf, hl'⟩ := forall_mem_append.mp hlf
    obtain ⟨⟨y, hy⟩, hfits⟩ := hrc hlf
      (hu.imp_right fun h => (Bool.and_eq_true_iff.mp h.1).1) inputRange hin
    refine ⟨⟨y, .phi hn mem_cons_self hy⟩, fun x hx => ?_⟩
    have hus : uses ranges loopPhi (.phi id isInteger isLoopHeader (input :: inputs)) =
        (uses ranges loopPhi input || decide (loopPhi ∈ rangedInputs ranges inputs)) := by
      rw [uses, hr]
      simp [rangedInputs, uses]
    rw [hus]
    refine recognized_inputs hmd hrc' hl'
      (hu.imp_right fun h => ⟨(Bool.and_eq_true_iff.mp h.1).2, fun i hi =>
        uses_of_uniform h.2 mem_cons_self i (mem_cons_of_mem _ hi)⟩)
      ⟨y, hy⟩ hfits haccept ?_
    cases hx with
    | ranged hs => exact absurd hs (by simp [HInstruction.id, hn])
    | phi _ hmm hz =>
      rcases mem_cons.mp hmm with rfl | hmm
      · exact .inl hz
      · exact .inr ⟨_, hmm, hz⟩

/-- **The ranges that the recognizer computes bound the values of every iteration.** -/
theorem recognized : ∀ instruction : HInstruction,
    Recognized info ranges ρ m mixed shape values loopPhi instruction
  | .phi _ _ _ inputs => recognized_phi hmd fun input _ => recognized input
  | .check id isInteger checkedInput => by
    intro hlf hmx range hv
    rw [visit] at hv
    rcases lookup_eq_some hv with hs | ⟨hn, haccept⟩
    · exact recognized_ranged hs (by simp [ranged, HInstruction.id, hs]) hlf
    have hr : ranged ranges (.check id isInteger checkedInput) = ranged ranges checkedInput := by
      simp [ranged, hn]
    rw [hr] at hlf
    rw [uniform, hn] at hmx
    obtain ⟨⟨y, hy⟩, hfits⟩ := recognized checkedInput hlf (by simpa using hmx) range haccept
    refine ⟨⟨y, .check hn hy⟩, fun x hx => ?_⟩
    rw [uses, hr]
    cases hx with
    | ranged hs => exact absurd hs (by simp [HInstruction.id, hn])
    | check _ hz => exact hfits x hz
  | .add id isInteger left right => by
    refine recognized_binary hmd false (by rw [visit]; rfl) (by rw [ranged]; rfl)
      (by rw [uniform]; rfl) ?_ (recognized left) (recognized right)
    intro hn z
    constructor
    · intro hz
      cases hz with
      | ranged hs => exact absurd hs (by simp [hn])
      | add _ hx hy => exact ⟨_, _, hx, hy, rfl⟩
    · rintro ⟨x, y, hx, hy, rfl⟩
      exact .add hn hx hy
  | .subtract id isInteger left right => by
    refine recognized_binary hmd true (by rw [visit]; rfl) (by rw [ranged]; rfl)
      (by rw [uniform]; rfl) ?_ (recognized left) (recognized right)
    intro hn z
    constructor
    · intro hz
      cases hz with
      | ranged hs => exact absurd hs (by simp [hn])
      | subtract _ hx hy => exact ⟨_, _, hx, hy, Int.sub_eq_add_neg⟩
    · rintro ⟨x, y, hx, hy, rfl⟩
      exact .subtract hn hx hy
  | .other id isInteger => by
    intro hlf _ range hv
    rw [visit] at hv
    rcases lookup_eq_some hv with hs | ⟨_, haccept⟩
    · exact recognized_ranged hs (by simp [ranged, HInstruction.id, hs]) hlf
    · exact nomatch haccept

end

end Visit

/-! ### Whole runs of the loop -/

section Runs

variable {info : ValueRangeInfo} {ranges : ℕ → Option Range} {ρ : ℕ → ℤ} {m : Bool → ExtInt}
  {loopPhi start : ℕ} {update : HInstruction} {mixed : Bool} {shape : Bool → Bool → Value → Prop}

theorem contains_iff {range : Range} {z : ℤ} : range.Contains ρ z ↔
    ∀ p, ∃ b, (bound p range).eval ρ = some b ∧ Beyond p b z := by
  constructor
  · rintro ⟨lo, hi, hlo, hhi, hl, hz⟩ p
    cases p with
    | true => exact ⟨hi, hhi, hz⟩
    | false => exact ⟨lo, hlo, hl⟩
  · intro h
    obtain ⟨hi, hhi, hz⟩ := h true
    obtain ⟨lo, hlo, hl⟩ := h false
    exact ⟨lo, hi, hlo, hhi, hl, hz⟩

theorem run_eq_some {range : Range} (h : run info ranges loopPhi start update = some range) :
    ∃ updateRange startRange, visit info (marked ranges loopPhi) update = some updateRange ∧
      ranges start = some startRange ∧
      ∀ p, bound p range = norm p (if (bound p updateRange).isMarkerValue then bound p startRange
        else info.operators.join p (bound p updateRange) (bound p startRange)) := by
  unfold run at h
  split at h
  · exact nomatch h
  next updateRange hv =>
  split at h
  · exact nomatch h
  next startRange hs =>
  obtain rfl := some.inj h
  refine ⟨updateRange, startRange, hv, ?_, fun p => ?_⟩
  · by_cases hne : start = loopPhi
    · rw [hne, update_self] at hs
      exact nomatch hs
    · rwa [update_of_ne hne] at hs
  · rw [bound_normalize]
    cases p <;> rfl

/-- The bound that the run gives: it is implied by that of the start range, and by that of the update
unless this is the marker. -/
theorem run_bound {p : Bool} {v s r : Value} {x : ℤ} {b : ExtInt} (ho : info.operators.Sound ρ)
    (hv : Bounds ρ m p x v) (hs : s.eval ρ = some b)
    (hr : r = norm p (if v.isMarkerValue then s else info.operators.join p v s)) :
    ∃ c, r.eval ρ = some c ∧ (∀ y, Beyond p b y → Beyond p c y) ∧
      (v = .marker p ∨ ∃ a, v.eval ρ = some a ∧ ∀ y, Beyond p a y → Beyond p c y) := by
  rcases hv with ⟨rfl, -⟩ | ⟨a, ha, -⟩
  · have hne : s ≠ .unknown := by
      rintro rfl
      exact nomatch hs
    rw [if_pos (show (Value.marker p).isMarkerValue = true from rfl), norm, if_neg hne] at hr
    subst hr
    exact ⟨b, hs, fun _ h => h, .inl rfl⟩
  have hmr : v.isMarkerValue = false := by
    cases v with
    | marker => exact nomatch ha
    | _ => rfl
  rw [hmr, if_neg nofun] at hr
  rcases join_of_eval ho ha hs with hun | ⟨-, c, hc, hal⟩
  · rw [hun] at hr
    exact ⟨infinity p, by rw [hr]; exact eval_infinite, fun _ _ => beyond_infinity,
      .inr ⟨a, ha, fun _ _ => beyond_infinity⟩⟩
  have hne : info.operators.join p v s ≠ .unknown := by
    intro hun
    rw [hun] at hc
    exact nomatch hc
  rw [norm, if_neg hne] at hr
  exact ⟨c, by rw [hr]; exact hc, fun y hy => hal y (.inr hy),
    .inr ⟨a, ha, fun y hy => hal y (.inl hy)⟩⟩

theorem Iterates.exists_inRanges {v₀ v : ℤ} (hv : Iterates ranges ρ loopPhi update v₀ v) :
    ∃ values, InRanges ranges ρ loopPhi update values := by
  cases hv with
  | start values hr | next values _ _ hr => exact ⟨values, hr⟩

section

variable (hsh : ∀ p, shape p true (.marker p))
  (hlf : ∀ i ∈ ranged (marked ranges loopPhi) update, ∀ range, i ≠ loopPhi →
    ranges i = some range → ∀ p, shape p false (bound p range))
  (hmx : mixed ∨ uniform (marked ranges loopPhi) loopPhi update)

include hsh hlf hmx

theorem update_bounds (hmd : Mode ρ m info.operators mixed shape) {values : ℕ → ℤ}
    (hp : ∀ p, Beyond p (m p) (values loopPhi)) (hrn : InRanges ranges ρ loopPhi update values)
    {updateRange : Range} (hv : visit info (marked ranges loopPhi) update = some updateRange) :
    (∃ x, Computes (marked ranges loopPhi) values update x) ∧
      ∀ x, Computes (marked ranges loopPhi) values update x →
        ∀ p, Bounds ρ m p x (bound p updateRange) := by
  suffices hfits : FitAll (marked ranges loopPhi) ρ m shape values loopPhi
      (ranged (marked ranges loopPhi) update) by
    obtain ⟨hex, ha⟩ := recognized hmd update hfits hmx updateRange hv
    exact ⟨hex, fun x hx p => (ha x hx p).1⟩
  intro i hi range hr
  by_cases hne : i = loopPhi
  · subst hne
    rw [marked, update_self] at hr
    obtain rfl := some.inj hr
    intro p
    have hbn : bound p Range.marker = .marker p := by cases p <;> rfl
    rw [beq_self_eq_true, hbn]
    exact ⟨.inl ⟨rfl, hp p⟩, hsh p⟩
  · rw [marked, update_of_ne hne] at hr
    rw [beq_eq_false_iff_ne.mpr hne]
    intro p
    obtain ⟨b, hb, hbz⟩ := contains_iff.mp (hrn i hi range hne hr) p
    exact ⟨.inr ⟨b, hb, hbz⟩, hlf i hi range hne hr p⟩

theorem run_contains {range startRange : Range} {v₀ v : ℤ}
    (hmd : ∀ m, (∀ z, startRange.Contains ρ z → ∀ p, Beyond p (m p) z) →
      Mode ρ m info.operators mixed shape)
    (hrn : run info ranges loopPhi start update = some range)
    (hst : ranges start = some startRange) (hv₀ : startRange.Contains ρ v₀)
    (hv : Iterates ranges ρ loopPhi update v₀ v) : range.Contains ρ v := by
  obtain ⟨updateRange, _, hvs, hst', hbn⟩ := run_eq_some hrn
  obtain rfl := some.inj (hst.symm.trans hst')
  have hs := contains_iff.mp hv₀
  -- The instructions have values in their ranges when the loop is entered.
  have he := hv.exists_inRanges
  -- So the bounds of the update stand for something, whatever the marker means.
  have hcl : ∀ p, ∃ x, Bounds ρ infinity p x (bound p updateRange) := by
    intro p
    obtain ⟨values, hr⟩ := he
    obtain ⟨⟨x, hx⟩, hall⟩ := update_bounds hsh hlf hmx
      (hmd infinity fun _ _ _ => beyond_infinity) (fun _ => beyond_infinity) hr hvs
    exact ⟨x, hall x hx p⟩
  have hrs : ∀ p, ∃ c, (bound p range).eval ρ = some c ∧
      (∀ z, startRange.Contains ρ z → Beyond p c z) ∧
      (bound p updateRange = .marker p ∨ ∃ a, (bound p updateRange).eval ρ = some a ∧
        ∀ y, Beyond p a y → Beyond p c y) := by
    intro p
    obtain ⟨x, hx⟩ := hcl p
    obtain ⟨b, hb, -⟩ := hs p
    obtain ⟨c, hc, hcb, hup⟩ := run_bound (hmd infinity fun _ _ _ => beyond_infinity).sound hx hb
      (hbn p)
    refine ⟨c, hc, fun z hz => ?_, hup⟩
    obtain ⟨_, hb', hbz'⟩ := contains_iff.mp hz p
    obtain rfl := some.inj (hb.symm.trans hb')
    exact hcb z hbz'
  -- Now the marker means the bounds of the result.
  choose m hm hstarts hu using hrs
  have hi : ∀ p, Beyond p (m p) v := by
    induction hv with
    | start => exact fun p => hstarts p v₀ hv₀
    | next values _ hp hr hrs ih =>
      intro p
      have hsp := (update_bounds hsh hlf hmx (hmd m fun z hz p => hstarts p z hz)
        (by rw [hp]; exact ih) hr hvs).2 _ hrs p
      rcases hu p with hmr | ⟨a, ha, hall⟩
      · rw [hmr] at hsp
        exact hsp.of_marker
      rcases hsp with ⟨hmr, -⟩ | ⟨_, ha', hx⟩
      · rw [hmr] at ha
        exact nomatch ha
      · obtain rfl := some.inj (ha.symm.trans ha')
        exact hall _ hx
  exact contains_iff.mpr fun p => ⟨m p, hm p, hi p⟩

end

/-- The bounds of the range are constants or infinite. -/
def IsConstant (range : Range) : Prop :=
  (range.lower = .minInt ∨ ∃ n, range.lower = .int n) ∧ (range.upper = .maxInt ∨ ∃ n, range.upper = .int n)

/-- **The range of a loop phi contains its value in every iteration**, if no inner phi joins what depends
on the loop phi with what does not, or if the loop may start at zero and all other ranges are constant. -/
theorem run_sound (info : ValueRangeInfo) (ranges : ℕ → Option Range) (ρ : ℕ → ℤ) (loopPhi start : ℕ)
    (update : HInstruction) (range startRange : Range) (v₀ v : ℤ) (hfold : ExactFold info.fold)
    (hrun : run info ranges loopPhi start update = some range)
    (hstart : ranges start = some startRange) (hv₀ : startRange.Contains ρ v₀)
    (hcond : uniform (marked ranges loopPhi) loopPhi update = true ∨
      (startRange.Contains ρ 0 ∧ ∀ i ∈ ranged (marked ranges loopPhi) update, ∀ range, i ≠ loopPhi →
        ranges i = some range → IsConstant range))
    (hv : Iterates ranges ρ loopPhi update v₀ v) : range.Contains ρ v := by
  have ho : info.operators.Sound ρ := tie_sound hfold _
  have hm : info.operators.Marks ρ := tie_marks hfold _
  rcases hcond with hu | ⟨hz, hconstant⟩
  · refine run_contains (fun p => .inl rfl) ?_ (.inr hu) (fun m _ => uniform_mode ho hm) hrun hstart
      hv₀ hv
    -- A range that contains something has no markers.
    intro i hi r hne hr p hmr
    obtain ⟨_, hrn⟩ := hv.exists_inRanges
    obtain ⟨b, hb, -⟩ := contains_iff.mp (hrn i hi r hne hr) p
    rw [hmr] at hb
    exact nomatch hb
  · refine run_contains (fun p => .inl (.inl rfl)) ?_ (.inl rfl)
      (fun m hs => constant_mode hfold (hs 0 hz)) hrun hstart hv₀ hv
    intro i hi r hne hr p
    obtain ⟨hl, hup⟩ := hconstant i hi r hne hr
    cases p with
    | false => exact hl.imp_left .inr
    | true => exact hup.imp_left .inr

/-- A loop whose phi `0` starts with the constant `1`, and another constant `2`. -/
def constants (first second : ℤ) (i : ℕ) : Option Range :=
  if i = 1 then some ⟨.int first, .int first⟩ else if i = 2 then some ⟨.int second, .int second⟩ else none

theorem inRanges_constants {first second : ℤ} {update : HInstruction} {values : ℕ → ℤ}
    (hr : ranged (marked (constants first second) 0) update = [0, 2]) (hv : values 2 = second) :
    InRanges (constants first second) ρ 0 update values := by
  intro i hi range hne hrn
  obtain rfl : i = 2 := by
    rw [hr] at hi
    simpa [hne] using hi
  obtain rfl := some.inj hrn
  rw [hv]
  exact ⟨_, _, rfl, rfl, int_le_int.mpr le_rfl, int_le_int.mpr le_rfl⟩

/-- `for (var i = 0; …; i++)` -/
theorem run_sound_counter : ∃ range,
    run ⟨some, 4⟩ (constants 0 1) 0 1 (.add 3 true (.other 0 true) (.other 2 true)) = some range ∧
      range = ⟨.int 0, .maxInt⟩ ∧ range.Contains (fun _ => 0) 1 := by
  have hr : InRanges (constants 0 1) (fun _ => 0) 0 (.add 3 true (.other 0 true) (.other 2 true))
      (fun i => if i = 2 then 1 else 0) := inRanges_constants rfl rfl
  have hp : Computes (marked (constants 0 1) 0) (fun i => if i = 2 then 1 else 0) (.other 0 true) 0 :=
    .ranged rfl
  have ho : Computes (marked (constants 0 1) 0) (fun i => if i = 2 then 1 else 0) (.other 2 true) 1 :=
    .ranged rfl
  have hs : Computes (marked (constants 0 1) 0) (fun i => if i = 2 then 1 else 0)
      (.add 3 true (.other 0 true) (.other 2 true)) 1 := .add rfl hp ho
  refine ⟨_, rfl, rfl, run_sound ⟨some, 4⟩ (constants 0 1) (fun _ => 0) 0 1
    (.add 3 true (.other 0 true) (.other 2 true)) _ ⟨.int 0, .int 0⟩ 0 1 ?_ rfl rfl
    ⟨_, _, rfl, rfl, by decide, by decide⟩ (.inl rfl) ?_⟩
  · intro z n h
    exact (some.inj h).symm
  · exact .next (fun i => if i = 2 then 1 else 0) (.start _ hr) rfl hr hs

/-- `var i = 10; while (…) { if (…) i = 5; }`: the range of `i` starts at `10`, and `i` becomes `5`. -/
theorem run_loses_constant : ∃ (info : ValueRangeInfo) (ranges : ℕ → Option Range) (update : HInstruction)
    (range : Range), ExactFold info.fold ∧ ranges 1 = some ⟨.int 10, .int 10⟩ ∧
      update = .phi 3 true false [.other 0 true, .other 2 true] ∧
      ranges 2 = some ⟨.int 5, .int 5⟩ ∧ run info ranges 0 1 update = some range ∧
      range = ⟨.int 10, .maxInt⟩ ∧ Iterates ranges (fun _ => 0) 0 update 10 5 ∧
      ¬ range.Contains (fun _ => 0) 5 := by
  refine ⟨⟨some, 4⟩, constants 10 5, _, _, ?_, rfl, rfl, rfl, rfl, rfl, ?_, ?_⟩
  · intro z n h
    exact (some.inj h).symm
  · have hr : InRanges (constants 10 5) (fun _ => 0) 0
        (.phi 3 true false [.other 0 true, .other 2 true]) (fun i => if i = 2 then 5 else 10) :=
      inRanges_constants rfl rfl
    have hf : Computes (marked (constants 10 5) 0) (fun i => if i = 2 then 5 else 10)
        (.other 2 true) 5 := .ranged rfl
    exact .next _ (.start _ hr) rfl hr (.phi rfl (mem_cons_of_mem _ mem_cons_self) hf)
  · rintro ⟨_, -, hlo, -, hle, -⟩
    obtain rfl := some.inj hlo
    exact absurd hle (by decide)

end Runs

end LoopUpdateRecognizer

end DartSdk.Compiler.ValueRange
