import DartSdk.Vm.RangeAnalysis.Boundary

/-!
# Elimination of bounds checks (`CheckArrayBoundInstr::IsRedundant`)

A check of an index against a length is redundant if the index is known to be at least 0 and below
the length.  The upper side is compared as constants first.  If this does not decide it, the
maximum of the index is weakened upwards and the length downwards, through the symbolic boundaries
of ranges, until both depend on one symbol.

* `canonicalizeLoop_spec`: going through constraints, additions and subtractions keeps the value.
* `compareLoop_spec`: each round of the comparison keeps the index below the one boundary and the
  length above the other.
* **`isRedundant_spec`**: a check that is found redundant passes, in every graph whose definitions
  have the values the graph records for them, **if those the analysis goes through hold Smis**.
* `symbol_outside_smi`: without this a check that fails is found redundant.
-/

namespace DartSdk.Vm.RangeAnalysis

open Option

namespace Graph

variable (g : Graph)

/-- The loop of `CanonicalizeBoundary`.  The cast of a constant operand that is not a Smi has no
result. -/
def canonicalizeLoop (overflow : RangeBoundary) : ℕ → DefId → ℤ → Option RangeBoundary
  | 0, _, _ => none
  | fuel + 1, symbol, offset =>
    match g.instr symbol with
    | .constraint s => canonicalizeLoop overflow fuel s offset
    | .binarySmiOp .add left right =>
      match g.instr right, g.instr left with
      | .constant (some rhs), _ =>
        if willAddOverflow offset rhs then some overflow
        else canonicalizeLoop overflow fuel left (offset + rhs)
      | .constant none, _ => none
      | _, .constant (some rhs) =>
        if willAddOverflow offset rhs then some overflow
        else canonicalizeLoop overflow fuel right (offset + rhs)
      | _, .constant none => none
      | _, _ => some (g.fromDefinition symbol offset)
    | .binarySmiOp .sub left right =>
      match g.instr right with
      | .constant (some rhs) =>
        if willSubOverflow offset rhs then some overflow
        else canonicalizeLoop overflow fuel left (offset - rhs)
      | .constant none => none
      | _ => some (g.fromDefinition symbol offset)
    | _ => some (g.fromDefinition symbol offset)

def canonicalizeBoundary (fuel : ℕ) (overflow : RangeBoundary) :
    RangeBoundary → Option RangeBoundary
  | .unknown => none
  | .symbol symbol offset => g.canonicalizeLoop overflow fuel symbol offset
  | b => some b

/-- `CanonicalizeMaxBoundary`: the weaker boundary, or `none` where it returns `false`. -/
def canonicalizeMaxBoundary (fuel : ℕ) : RangeBoundary → Option (Option RangeBoundary)
  | .symbol symbol offset =>
    match g.range symbol with
    | some ⟨_, .symbol s o⟩ =>
      if willAddOverflow o offset then some (some .positiveInfinity)
      else
        (g.canonicalizeBoundary fuel .positiveInfinity (g.fromDefinition s (o + offset))).map some
    | _ => some none
  | _ => some none

def canonicalizeMinBoundary (fuel : ℕ) : RangeBoundary → Option (Option RangeBoundary)
  | .symbol symbol offset =>
    match g.range symbol with
    | some ⟨.symbol s o, _⟩ =>
      if willAddOverflow o offset then some (some .negativeInfinity)
      else
        (g.canonicalizeBoundary fuel .negativeInfinity (g.fromDefinition s (o + offset))).map some
    | _ => some none
  | _ => some none

def unwrapConstraint : ℕ → DefId → Option DefId
  | 0, _ => none
  | fuel + 1, defn =>
    match g.instr defn with
    | .constraint s => unwrapConstraint fuel s
    | _ => some defn

def areEqualDefinitions (fuel : ℕ) (a b : DefId) : Option Bool := do
  let a ← g.unwrapConstraint fuel a
  let b ← g.unwrapConstraint fuel b
  return a == b || g.equalExpressions a b

def dependOnSameSymbol (fuel : ℕ) : RangeBoundary → RangeBoundary → Option Bool
  | .symbol a _, .symbol b _ => g.areEqualDefinitions fuel a b
  | _, _ => some false

/-- The loop at the end of `IsRedundant`. -/
def compareLoop : ℕ → RangeBoundary → RangeBoundary → Option Bool
  | 0, _, _ => none
  | fuel + 1, max, length =>
    (g.dependOnSameSymbol fuel max length).bind fun same =>
      if same then some (decide (max.offset < length.offset))
      else
        (g.canonicalizeMaxBoundary fuel max).bind fun
          | some max' => compareLoop fuel max' length
          | none =>
            (g.canonicalizeMinBoundary fuel length).bind fun
              | some length' => compareLoop fuel max length'
              | none => some false

/-- The range that `IsRedundant` looks at: a constant index without a range gets one. -/
def indexRange (index : DefId) : Option Range :=
  match g.range index, g.instr index with
  | some r, _ => some r
  | none, .constant (some value) => some ⟨.constant value, .constant value⟩
  | none, _ => none

/-- `CheckArrayBoundInstr::IsRedundant`. -/
def isRedundant (fuel : ℕ) (index : DefId) (length : RangeBoundary) : Option Bool :=
  match g.indexRange index with
  | none => some false
  | some range => do
    let min ← g.constantMinSmi fuel (some range)
    if min.constantValue < 0 then return false
    let max ← g.canonicalizeBoundary fuel .positiveInfinity (g.fromDefinition index 0)
    if max.overflowedSmi then return false
    let maxUpper ← g.upperBound fuel max
    let lengthLower ← g.lowerBound fuel length
    if maxUpper.overflowedSmi || lengthLower.overflowedSmi then return false
    if maxUpper.constantValue < lengthLower.constantValue then return true
    let canonicalLength ← g.canonicalizeBoundary fuel .positiveInfinity length
    if canonicalLength.overflowedSmi then return false
    g.compareLoop fuel max canonicalLength

end Graph

section Soundness

variable {side : Side} {g : Graph} {v : DefId → ℤ} {x : ℤ} {fuel : ℕ} {b b' : RangeBoundary}

/-- The boundary is a symbol whose value, with the offset, is `x`, or it is `x` as a constant. -/
def Keeps (g : Graph) (v : DefId → ℤ) (x : ℤ) (b : RangeBoundary) : Prop :=
  (∃ s o, b = .symbol s o ∧ v s + o = x ∧ SmisFrom g v s) ∨ b = .constant (toInt64 x)

theorem keeps_fromDefinition (h : Respects g v) {d : DefId} (hs : SmisFrom g v d) (o : ℤ) :
    Keeps g v (v d + o) (g.fromDefinition d o) := by
  rw [Graph.fromDefinition]
  split
  · rename_i value hi
    rw [← h.constant hi]
    exact .inr rfl
  · exact .inl ⟨d, o, rfl, rfl, hs⟩

/-- **The loop of `CanonicalizeBoundary` keeps the value.** -/
theorem canonicalizeLoop_spec (h : Respects g v) (overflow : RangeBoundary) (d : DefId) (o : ℤ)
    (hb : g.canonicalizeLoop overflow fuel d o = some b) (hs : SmisFrom g v d) :
    b = overflow ∨ Keeps g v (v d + o) b := by
  induction fuel generalizing d o with
  | zero => cases hb
  | succ fuel ih =>
    rw [Graph.canonicalizeLoop] at hb
    split at hb
    · -- a constraint
      rename_i s hi
      rw [h.constraint hi]
      exact ih s o hb (hs.step (Visits.refl.constraint hi))
    · -- an addition; one operand may be a constant
      rename_i l r hi
      split at hb
      · rename_i c hr
        split_ifs at hb
        · exact .inl (some.inj hb).symm
        · rw [h.add_right hi hr, Int.add_assoc, Int.add_comm c o]
          exact ih l (o + c) hb (hs.step (Visits.refl.left hi))
      · cases hb
      · rename_i c hl _ _
        split_ifs at hb
        · exact .inl (some.inj hb).symm
        · rw [h.add_left hi hl, Int.add_assoc, Int.add_comm c o]
          exact ih r (o + c) hb (hs.step (Visits.refl.right hi))
      · cases hb
      · cases hb
        exact .inr (keeps_fromDefinition h hs o)
    · -- a subtraction
      rename_i l r hi
      split at hb
      · rename_i c hr
        split_ifs at hb
        · exact .inl (some.inj hb).symm
        have hv : v d + o = v l + (o - c) := by
          rw [h.sub hi hr]
          omega
        rw [hv]
        exact ih l (o - c) hb (hs.step (Visits.refl.left hi))
      · cases hb
      · cases hb
        exact .inr (keeps_fromDefinition h hs o)
    · cases hb
      exact .inr (keeps_fromDefinition h hs o)

/-- From a definition and an offset, as the callers of `CanonicalizeBoundary` have it. -/
theorem canonicalizeBoundary_spec (h : Respects g v) {overflow : RangeBoundary}
    (hk : Keeps g v x b) (hb : g.canonicalizeBoundary fuel overflow b = some b') :
    b' = overflow ∨ Keeps g v x b' := by
  rcases hk with ⟨s, o, rfl, rfl, hs⟩ | rfl
  · exact canonicalizeLoop_spec h overflow s o hb hs
  · cases hb
    exact .inr (.inr rfl)

theorem unwrapConstraint_induction {P : DefId → Prop} {d u : DefId}
    (hst : ∀ d s, g.instr d = .constraint s → P d → P s) (hd : P d)
    (hu : g.unwrapConstraint fuel d = some u) : P u := by
  induction fuel generalizing d with
  | zero => cases hu
  | succ fuel ih =>
    rw [Graph.unwrapConstraint] at hu
    split at hu
    · rename_i s hs
      exact ih (hst d s hs hd) hu
    · cases hu
      exact hd

theorem unwrapConstraint_spec
    (h : ∀ {d s}, g.instr d = .constraint s → v d = v s) {d d' : DefId}
    (hd : g.unwrapConstraint fuel d = some d') : v d' = v d :=
  unwrapConstraint_induction (P := fun x => v x = v d) (fun _ _ hs hx => (h hs).symm.trans hx) rfl hd

theorem areEqualDefinitions_spec (h : Respects g v) {a b : DefId}
    (hab : g.areEqualDefinitions fuel a b = some true) : v a = v b := by
  simp only [Graph.areEqualDefinitions, bind_eq_bind, bind_eq_some_iff,
    pure_def, some.injEq, Bool.or_eq_true, beq_iff_eq] at hab
  obtain ⟨_, ha, _, hb, heq⟩ := hab
  rw [← unwrapConstraint_spec h.constraint ha, ← unwrapConstraint_spec h.constraint hb]
  rcases heq with rfl | heq
  · rfl
  · exact h.equal heq

/-- The boundary is on this side of `x`, where it is a symbol. -/
def Side.BoundsSymbol (side : Side) (g : Graph) (v : DefId → ℤ) (x : ℤ) (b : RangeBoundary) : Prop :=
  ∀ s o, b = .symbol s o → side.Le (v s + o) x ∧ SmisFrom g v s

def Side.canonicalize (g : Graph) (fuel : ℕ) (b : RangeBoundary) :
    Side → Option (Option RangeBoundary)
  | min => g.canonicalizeMinBoundary fuel b
  | max => g.canonicalizeMaxBoundary fuel b

theorem canonicalize_cases {s : DefId} {o : ℤ}
    (hb : side.canonicalize g fuel (.symbol s o) = some (some b)) :
    ∃ r s₁ o₁, g.range s = some r ∧ side.boundary r = .symbol s₁ o₁ ∧ (b = side.infinity ∨
      g.canonicalizeBoundary fuel side.infinity (g.fromDefinition s₁ (o₁ + o)) = some b) := by
  cases side
  all_goals
    simp only [Side.canonicalize, Graph.canonicalizeMinBoundary, Graph.canonicalizeMaxBoundary] at hb
    split at hb
    · rename_i hr
      refine ⟨_, _, _, hr, rfl, ?_⟩
      split_ifs at hb
      · cases hb
        exact .inl rfl
      · obtain ⟨_, hb₁, ⟨⟩⟩ := map_eq_some_iff.mp hb
        exact .inr hb₁
    · cases hb

theorem canonicalize_spec (h : Respects g v) (hx : side.BoundsSymbol g v x b)
    (hb : side.canonicalize g fuel b = some (some b')) : side.BoundsSymbol g v x b' := by
  cases b with
  | symbol s o =>
    obtain ⟨hle, hs⟩ := hx s o rfl
    obtain ⟨r, s₁, o₁, hr, hs₁, rfl | hb⟩ := canonicalize_cases hb
    · cases side <;> nofun
    have ha := side.admits_range h hs hr
    rw [hs₁] at ha
    have hbn := ha.bounds
    rcases canonicalizeBoundary_spec h (keeps_fromDefinition h ha.smis (o₁ + o)) hb with
      rfl | ⟨s₂, o₂, rfl, heq, hs₂⟩ | rfl
    · cases side <;> nofun
    · rintro _ _ ⟨⟩
      refine ⟨?_, hs₂⟩
      cases side <;> dsimp only [Side.Le, Side.Bounds, Below, Above] at * <;> omega
    · nofun
  | _ => cases side <;> cases hb

/-- **The symbolic comparison is sound.** -/
theorem compareLoop_spec (h : Respects g v) {i n : ℤ} (max length : RangeBoundary)
    (hi : Side.max.BoundsSymbol g v i max) (hn : Side.min.BoundsSymbol g v n length)
    (hr : g.compareLoop fuel max length = some true) : i < n := by
  induction fuel generalizing max length with
  | zero => cases hr
  | succ fuel ih =>
    rw [Graph.compareLoop, bind_eq_some_iff] at hr
    obtain ⟨_, hs, hr⟩ := hr
    split_ifs at hr with heq
    · -- both depend on one symbol: its value cancels
      subst heq
      cases max with
      | symbol s o =>
        cases length with
        | symbol s' o' =>
          have hv := areEqualDefinitions_spec h hs
          have hlt : o < o' := of_decide_eq_true (some.inj hr)
          have h1 : i ≤ v s + o := (hi s o rfl).1
          have h2 : v s' + o' ≤ n := (hn s' o' rfl).1
          omega
        | _ => cases hs
      | _ => cases hs
    · obtain ⟨max', hm, hr⟩ := bind_eq_some_iff.mp hr
      cases max' with
      | some max' => exact ih max' length (canonicalize_spec h hi hm) hn hr
      | none =>
        obtain ⟨length', hl, hr⟩ := bind_eq_some_iff.mp hr
        cases length' with
        | some length' => exact ih max length' hi (canonicalize_spec h hn hl) hr
        | none => cases hr

/-- The value of a boundary that has one. -/
def Denotes (v : DefId → ℤ) (x : ℤ) : RangeBoundary → Prop
  | .constant c => x = c
  | .symbol s o => x = v s + o
  | _ => False

theorem Keeps.symbol {s : DefId} {o : ℤ} (h : Keeps g v x (.symbol s o)) :
    v s + o = x ∧ SmisFrom g v s := by
  rcases h with ⟨_, _, heq, h⟩ | heq
  · cases heq
    exact h
  · cases heq

theorem Keeps.admits (hx : IsSmi x) (hk : Keeps g v x b) : Side.max.Admits g v x b := by
  rcases hk with ⟨s, o, rfl, rfl, hs⟩ | rfl
  · exact ⟨Int.le_refl _, hs⟩
  · refine ⟨?_, trivial⟩
    rw [toInt64_eq (isSmi_int64 hx).1 (isSmi_int64 hx).2]
    exact Int.le_refl x

private theorem of_ite_false {c : Prop} [Decidable c] {a : Option Bool}
    (h : (if c then some false else a) = some true) : ¬ c ∧ a = some true := by
  split_ifs at h with hc
  · cases h
  · exact ⟨hc, h⟩

theorem Side.IsBound.constantValue (h : side.IsBound x b) (hb : ¬ b.overflowedSmi) :
    side.Le b.constantValue x := by
  rcases h with rfl | ⟨c, rfl, hc⟩
  · cases side <;> exact absurd rfl hb
  · exact hc

theorem Denotes.admits (hx : Denotes v x b) (hs : SmisFromBoundary g v b) :
    Side.min.Admits g v x b := by
  refine ⟨?_, hs⟩
  cases b with
  | constant c | symbol s o => exact Int.le_of_eq hx.symm
  | _ => exact absurd hx id

theorem indexMin_le (h : Respects g v) {index : DefId} (hin : SmisFrom g v index)
    {range : Range} (hrn : g.indexRange index = some range)
    (hmn : g.constantMinSmi fuel (some range) = some b) : b.constantValue ≤ v index := by
  have ha : Side.min.Admits g v (v index) range.min := by
    unfold Graph.indexRange at hrn
    split at hrn
    · rename_i hr
      cases hrn
      exact Side.min.admits_range h hin hr
    · -- only a constant has no range, and it is given the one of its value
      rename_i hi
      cases hrn
      exact ⟨Int.le_of_eq (h.constant hi).symm, trivial⟩
    · cases hrn
  rw [Graph.constantMinSmi, map_eq_some_iff] at hmn
  obtain ⟨_, hb₁, rfl⟩ := hmn
  obtain ⟨m, hm, hle⟩ := (ha.bound h hb₁).clamp .smi hin.self.1
  rw [hm]
  exact hle

/-- The boundary may be any that the length is not below. -/
theorem lt_of_isRedundant (h : Respects g v) {index : DefId} {length : RangeBoundary} {n : ℤ}
    (hi : SmisFrom g v index) (hl : Side.min.Admits g v n length)
    (hr : g.isRedundant fuel index length = some true) : 0 ≤ v index ∧ v index < n := by
  rw [Graph.isRedundant] at hr
  split at hr
  · cases hr
  rename_i range hrn
  simp only [bind_eq_bind, pure_def] at hr
  obtain ⟨_, hm, hr⟩ := bind_eq_some_iff.mp hr
  obtain ⟨hn, hr⟩ := of_ite_false hr
  obtain ⟨max, hmx, hr⟩ := bind_eq_some_iff.mp hr
  obtain ⟨ho, hr⟩ := of_ite_false hr
  obtain ⟨_, hu, hr⟩ := bind_eq_some_iff.mp hr
  obtain ⟨lengthLower, hlw, hr⟩ := bind_eq_some_iff.mp hr
  obtain ⟨hb, hr⟩ := of_ite_false hr
  refine ⟨Int.le_trans (Int.not_lt.mp hn) (indexMin_le h hi hrn hm), ?_⟩
  -- the canonical boundary of the index has the value of the index
  have hkp : Keeps g v (v index) max := by
    have hs := keeps_fromDefinition h hi 0
    rw [Int.add_zero] at hs
    rcases canonicalizeBoundary_spec h hs hmx with rfl | hk
    · exact absurd rfl ho
    · exact hk
  have hup := (hkp.admits hi.self).bound h hu
  have hlo := hl.bound h hlw
  rw [Bool.or_eq_true, not_or] at hb
  split_ifs at hr with hlt
  · -- the constant bounds are apart
    have h1 : v index ≤ _ := hup.constantValue hb.1
    have h2 : _ ≤ n := hlo.constantValue hb.2
    omega
  obtain ⟨canonicalLength, hc, hr⟩ := bind_eq_some_iff.mp hr
  obtain ⟨-, hr⟩ := of_ite_false hr
  refine compareLoop_spec h max canonicalLength ?_ ?_ hr
  · rintro s o rfl
    obtain ⟨hv, hsm⟩ := hkp.symbol
    exact ⟨Int.le_of_eq hv.symm, hsm⟩
  · rintro s o rfl
    cases length with
    | symbol s' o' =>
      rcases canonicalizeLoop_spec h .positiveInfinity s' o' hc hl.smis with heq | hk
      · cases heq
      · obtain ⟨hv, hsm⟩ := hk.symbol
        exact ⟨Int.le_trans (Int.le_of_eq hv) hl.bounds, hsm⟩
    | _ => cases hc

/-- **A redundant check passes.**  If `IsRedundant` holds of an index and a length, the values of
the definitions respect the graph, and those the analysis goes through are Smis, then the index
is at least 0 and below the length. -/
theorem isRedundant_spec (g : Graph) (v : DefId → ℤ) (h : Respects g v) (fuel : ℕ) (index : DefId)
    (length : RangeBoundary) (n : ℤ) (hn : Denotes v n length)
    (hindex : SmisFrom g v index) (hlength : SmisFromBoundary g v length)
    (hr : g.isRedundant fuel index length = some true) : 0 ≤ v index ∧ v index < n :=
  lt_of_isRedundant h hindex (hn.admits hlength) hr

theorem respects_range {d : DefId} {r : Range} (h : Within v (v d) r) :
    Respects ⟨fun _ => .other, fun i => if i = d then some r else none, fun _ _ => false⟩ v := by
  refine ⟨?_, ?_, ?_, ?_, ?_, ?_, ?_⟩
  · intro i s hs
    obtain ⟨rfl, ⟨⟩⟩ := ite_none_right_eq_some.mp hs
    exact h
  all_goals simp

/-- An index that is known to be at least 0 and at most one less than the length, which nothing is
known about. -/
def loopGraph : Graph where
  instr := fun _ => .other
  range := fun d => if d = 1 then some ⟨.constant 0, .symbol 0 (-1)⟩ else none
  equalExpressions := fun _ _ => false

def loopValues (d : DefId) : ℤ := if d = 0 then 7 else 3

theorem isRedundant_spec_loop : 0 ≤ loopValues 1 ∧ loopValues 1 < loopValues 0 := by
  have hs : ∀ d, IsSmi (loopValues d) := by
    intro d
    rw [loopValues]
    split_ifs <;> decide
  exact isRedundant_spec loopGraph loopValues (respects_range ⟨by decide, by decide⟩) 3 1 (.symbol 0 0) 7 rfl
    (fun d _ => hs d) (fun d _ => hs d) (by decide)

/-- An index that is at least `2 ^ 62` more than a definition without a range. -/
def outsideGraph : Graph where
  instr := fun _ => .other
  range := fun d => if d = 0 then some ⟨.symbol 1 (2 ^ 62), .constant 5⟩ else none
  equalExpressions := fun _ _ => false

def outsideValues (d : DefId) : ℤ := if d = 0 then -10 else -2 ^ 62 - 10

/-- The definition is below the Smis, but taken to be one: the check of the negative index is found
redundant. -/
theorem symbol_outside_smi :
    Respects outsideGraph outsideValues ∧
      outsideGraph.isRedundant 2 0 (.constant 10) = some true ∧ outsideValues 0 < 0 :=
  ⟨respects_range ⟨by decide, by decide⟩, by decide, by decide⟩

end Soundness

end DartSdk.Vm.RangeAnalysis
