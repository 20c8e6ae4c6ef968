import Mathlib.Algebra.Group.Int.Defs
import Mathlib.Algebra.Group.Nat.Defs
import Mathlib.Data.Finset.Card
import Mathlib.Order.Bounds.Defs
import DartSdk.Lib.Simulation

/-!
# Uint32 narrowing (`IntegerInstructionSelector`)

The selector replaces 64-bit integer instructions by 32-bit unsigned ones where the high half of
their result does not matter.  It starts from the masks whose result is known to fit
(`isUint32NarrowingDefinition`) and goes backwards: an instruction all of whose uses are selected
is selected too, and so is the box of a selected instruction.

* The model: a program of instructions, `select`, and `step`, which executes a program with the
  selected instructions replaced.
* `select_isLeast`: `Propagate` computes a least fixed point.
* `select_justified`: why an instruction is selected.  A box is selected only if it boxes a mask:
  an instruction that is selected for its uses is selected after its box.
* `step_agrees`: both versions of an instruction agree modulo `2 ^ 32`, and exactly if it is not
  selected or is a mask or a box.
* **`select_preserves`**: in every run the narrowed program goes through the same instructions,
  and every value that is not narrowed, that another instruction reads or that is shifted by is
  the same.
-/

namespace DartSdk.Vm.IntegerInstructionSelector

open DartSdk.Simulation List Option Function

variable {W : Type}

section Graph

/-- An integer, boxed or not. -/
abbrev Value := BitVec 64

inductive MintOp
  | bitAnd
  | bitOr
  | bitXor
  | add
  | sub
  | mul
  deriving DecidableEq

inductive ShiftOp
  | shl
  | shr
  deriving DecidableEq

inductive Representation
  | tagged
  | unboxedMint
  | other
  deriving DecidableEq

/-- The instructions of `IsPotentialUint32Definition`.  A definition goes by the number of the
instruction that defines it.  The only operation of `UnaryMintOp` is `BIT_NOT`. -/
inductive MintInstr
  | binaryMintOp (op : MintOp) (left right : ℕ)
  | shiftMintOp (op : ShiftOp) (left right : ℕ)
  | unaryMintOp (value : ℕ)
  | boxInt64 (value : ℕ)
  | unboxInt64 (value : ℕ)
  deriving DecidableEq

def MintInstr.inputs : MintInstr → List ℕ
  | .binaryMintOp _ left right => [left, right]
  | .shiftMintOp _ left right => [left, right]
  | .unaryMintOp value => [value]
  | .boxInt64 value => [value]
  | .unboxInt64 value => [value]

/-- An instruction.  What is not an instruction of the selector computes a value from its inputs
and a world of type `W` (the heap, the output), may change the world, and says where to go on:
calls, loads and stores, comparisons and branches, returns, constants, and phis, to which a jump
hands their inputs in the world. -/
inductive Instr (W : Type)
  | mint (m : MintInstr)
  | other (representation : Representation) (inputs : List ℕ)
      (effect : List Value → W → Value × W × ℕ)

def Instr.inputs : Instr W → List ℕ
  | .mint m => m.inputs
  | .other _ inputs _ => inputs

def Instr.representation : Instr W → Representation
  | .mint (.boxInt64 _) => .tagged
  | .mint _ => .unboxedMint
  | .other representation _ _ => representation

/-- Parameters, which no instruction defines, are tagged. -/
def representationOf (code : List (Instr W)) (d : ℕ) : Representation :=
  (code[d]?).elim .tagged Instr.representation

/-- `RequiredInputRepresentation`, for the inputs of an instruction in turn. -/
def MintInstr.requiredInputRepresentations : MintInstr → List Representation
  | .binaryMintOp _ _ _ => [.unboxedMint, .unboxedMint]
  | .shiftMintOp _ _ _ => [.unboxedMint, .tagged]
  | .unaryMintOp _ => [.unboxedMint]
  | .boxInt64 _ => [.unboxedMint]
  | .unboxInt64 _ => [.tagged]

/-- The inputs of the integer instructions have the representations they require. -/
def Instr.HasInputRepresentations (code : List (Instr W)) : Instr W → Prop
  | .mint m => m.inputs.map (representationOf code) = m.requiredInputRepresentations
  | .other _ _ _ => True

instance (code : List (Instr W)) : DecidablePred (Instr.HasInputRepresentations code)
  | .mint m => inferInstanceAs (Decidable (_ = m.requiredInputRepresentations))
  | .other _ _ _ => inferInstanceAs (Decidable True)

/-- What `LowerBound()` and `UpperBound()` of a range are; `none` is an infinity. -/
structure Bounds where
  lower : Option ℤ
  upper : Option ℤ

/-- `Range::IsWithin`. -/
def Bounds.isWithin (b : Bounds) (min max : ℤ) : Bool :=
  b.lower.any (fun l => decide (min ≤ l)) && b.upper.any (fun u => decide (u ≤ max))

def Bounds.holds (b : Bounds) (v : Value) : Bool :=
  b.lower.all (fun l => decide (l ≤ v.toInt)) && b.upper.all (fun u => decide (v.toInt ≤ u))

/-- The flow graph after `SelectRepresentations`: the instructions, the definitions that the
environment of an instruction uses, and for every definition its range, its `can_overflow()` and
whether it has an SSA temporary. -/
structure Program (W : Type) where
  code : List (Instr W)
  environment : ℕ → List ℕ
  range : ℕ → Option Bounds
  canOverflow : ℕ → Bool
  hasSSATemp : ℕ → Bool
  representations : ∀ instr ∈ code, instr.HasInputRepresentations code

end Graph

open MintInstr

open Program

namespace Program

section Selection

variable (p : Program W)

section

variable (d : ℕ) (selected : ℕ → Bool)

def kMaxUint32 : ℤ := 2 ^ 32 - 1

def inputsAt (i : ℕ) : List ℕ := (p.code[i]?).elim [] Instr.inputs

/-- The range of a definition is known and within the bounds. -/
def rangeIsWithin (min max : ℤ) : Bool := (p.range d).any fun b => b.isWithin min max

def isPotentialUint32Definition (i : ℕ) : Bool :=
  match p.code[i]? with
  | some (.mint _) => true
  | _ => false

def potentialUint32Defs : List ℕ :=
  (List.range p.code.length).filter fun i => p.hasSSATemp i && p.isPotentialUint32Definition i

def isUint32NarrowingDefinition (i : ℕ) : Bool :=
  match p.code[i]? with
  | some (.mint (.binaryMintOp .bitAnd _ _)) => p.rangeIsWithin i 0 kMaxUint32
  | _ => false

/-- The set of `FindUint32NarrowingDefinitions`. -/
def initialSet (i : ℕ) : Bool :=
  p.potentialUint32Defs.contains i && p.isUint32NarrowingDefinition i

/-- `AllUsesAreUint32Narrowing` for the uses of `d` that `uses` lists for every instruction. -/
def allUsesAreUint32Narrowing (uses : ℕ → List ℕ) (d : ℕ) : Bool :=
  (List.range p.code.length).all fun i =>
    !(uses i).contains d || (p.hasSSATemp i && selected i)

def hasUses : Bool :=
  (List.range p.code.length).any fun i =>
    (p.inputsAt i).contains d || (p.environment i).contains d

/-- The end of `CanBecomeUint32`, for all but boxes. -/
def usesCanBecomeUint32 (i : ℕ) : Bool :=
  p.hasUses i && p.allUsesAreUint32Narrowing selected p.inputsAt i &&
    p.allUsesAreUint32Narrowing selected p.environment i

def canBecomeUint32 (i : ℕ) : Bool :=
  match p.code[i]? with
  | some (.mint (.boxInt64 value)) => selected value
  | some (.mint (.shiftMintOp .shr left _)) =>
    -- The high bits are shifted into the result.
    p.rangeIsWithin left 0 kMaxUint32 && p.usesCanBecomeUint32 selected i
  | some (.mint _) => p.usesCanBecomeUint32 selected i
  | _ => false

/-- One definition in an iteration of `Propagate`; the flag is `changed`. -/
def propagateAt (acc : (ℕ → Bool) × Bool) (i : ℕ) : (ℕ → Bool) × Bool :=
  if acc.1 i then acc
  else if p.canBecomeUint32 acc.1 i then (Function.update acc.1 i true, true)
  else acc

/-- One iteration of `Propagate`. -/
def propagateOnce : (ℕ → Bool) × Bool :=
  p.potentialUint32Defs.foldl p.propagateAt (selected, false)

end

/-- `Propagate`, for at most `rounds` iterations. -/
def propagate : ℕ → (ℕ → Bool) → ℕ → Bool
  | 0, selected => selected
  | rounds + 1, selected =>
    let r := p.propagateOnce selected
    if r.2 then propagate rounds r.1 else r.1

/-- `Select`: the definitions that are replaced. -/
def select : ℕ → Bool := p.propagate (p.potentialUint32Defs.length + 1) p.initialSet

end Selection

end Program

section Execution

def MintOp.eval {w : ℕ} (op : MintOp) (a b : BitVec w) : BitVec w :=
  match op with
  | .bitAnd => a &&& b
  | .bitOr => a ||| b
  | .bitXor => a ^^^ b
  | .add => a + b
  | .sub => a - b
  | .mul => a * b

/-- The instruction leaves the optimized code: only a multiplication always checks. -/
def MintOp.deoptimizes (op : MintOp) (canOverflow : Bool) (a b : Value) : Bool :=
  match op with
  | .add => canOverflow && a.saddOverflow b
  | .sub => canOverflow && a.ssubOverflow b
  | .mul => a.smulOverflow b
  | _ => false

/-- The right shift is arithmetic. -/
def ShiftOp.evalMint (op : ShiftOp) (a : BitVec 64) (count : ℕ) : BitVec 64 :=
  match op with
  | .shl => a <<< count
  | .shr => a.sshiftRight count

/-- The right shift is logical. -/
def ShiftOp.evalUint32 (op : ShiftOp) (a : BitVec 32) (count : ℕ) : BitVec 32 :=
  match op with
  | .shl => a <<< count
  | .shr => a >>> count

def ShiftOp.deoptimizes (op : ShiftOp) (canOverflow : Bool) (a : Value) (count : ℕ) : Bool :=
  match op with
  | .shl => canOverflow && ((a <<< count).sshiftRight count != a)
  | .shr => false

def kMintShiftCountLimit : ℤ := 63

def low (a : Value) : BitVec 32 := a.setWidth 32

def ofLow (a : BitVec 32) : Value := a.setWidth 64

namespace MintInstr

variable (env : ℕ → Value)

def evalMint : MintInstr → Value
  | .binaryMintOp op left right => op.eval (env left) (env right)
  | .shiftMintOp op left right => op.evalMint (env left) (env right).toNat
  | .unaryMintOp value => ~~~env value
  | .boxInt64 value => env value
  | .unboxInt64 value => env value

/-- The value of the replacement of `ConstructReplacementFor`. -/
def evalUint32 : MintInstr → Value
  | .binaryMintOp op left right => ofLow (op.eval (low (env left)) (low (env right)))
  | .shiftMintOp op left right => ofLow (op.evalUint32 (low (env left)) (env right).toNat)
  | .unaryMintOp value => ofLow (~~~low (env value))
  | .boxInt64 value => ofLow (low (env value))
  | .unboxInt64 value => ofLow (low (env value))

/-- The replacements deoptimize for a negative shift count only. -/
def deoptimizesUint32 : MintInstr → Bool
  | .shiftMintOp _ _ right => decide ((env right).toInt < 0)
  | _ => false

/-- Where the 64-bit instruction, which may have to check the count of a shift and that the result
does not overflow, leaves the optimized code. -/
def deoptimizesMint (hasShiftCountCheck : ℕ → Bool) (canOverflow : Bool) : MintInstr → Bool
  | .binaryMintOp op left right => op.deoptimizes canOverflow (env left) (env right)
  | .shiftMintOp op left right =>
    hasShiftCountCheck right &&
        decide ((env right).toInt < 0 ∨ kMintShiftCountLimit < (env right).toInt) ||
      op.deoptimizes canOverflow (env left) (env right).toNat
  | _ => false

end MintInstr

structure State (W : Type) where
  pc : ℕ
  env : ℕ → Value
  world : W

section

variable (p : Program W) (s : State W)

/-- `has_shift_count_check()` of a shift with this right operand. -/
def Program.hasShiftCountCheck (right : ℕ) : Bool :=
  !p.rangeIsWithin right 0 kMintShiftCountLimit

/-- The current instruction leaves the optimized code. -/
def Program.deoptimizes : Bool :=
  match p.code[s.pc]? with
  | some (.mint m) => m.deoptimizesMint s.env p.hasShiftCountCheck (p.canOverflow s.pc)
  | _ => false

def State.define (v : Value) (world : W) (pc : ℕ) : State W :=
  ⟨pc, Function.update s.env s.pc v, world⟩

/-- One instruction of the program in which the selected definitions are replaced; there is no
next state after the last instruction, and where the program leaves the optimized code. -/
def step (selected : ℕ → Bool) (s : State W) : Option (State W) :=
  match p.code[s.pc]? with
  | none => none
  | some (.other _ inputs effect) =>
    let r := effect (inputs.map s.env) s.world
    some (s.define r.1 r.2.1 r.2.2)
  | some (.mint m) =>
    if selected s.pc then
      if m.deoptimizesUint32 s.env then none
      else some (s.define (m.evalUint32 s.env) s.world (s.pc + 1))
    else if p.deoptimizes s then none
    else some (s.define (m.evalMint s.env) s.world (s.pc + 1))

/-- The program before the selection. -/
def stepMint : State W → Option (State W) := step p fun _ => false

/-- What the range analysis promises of an instruction that is executed: its operands and its
result are within their ranges. -/
def Program.rangesHold : Bool :=
  (p.inputsAt s.pc).all (fun d => (p.range d).all fun b => b.holds (s.env d)) &&
    (stepMint p s).all fun s' => (p.range s.pc).all fun b => b.holds (s'.env s.pc)

end

end Execution

namespace Program

section FixedPoint

variable (p : Program W)

/-- The number of definitions that could still be selected. -/
def unselected (selected : ℕ → Bool) : ℕ :=
  (p.potentialUint32Defs.toFinset.filter fun i => selected i = false).card

theorem unselected_update_lt {selected : ℕ → Bool} {i : ℕ} (hi : i ∈ p.potentialUint32Defs)
    (hs : selected i = false) :
    p.unselected (Function.update selected i true) < p.unselected selected := by
  have he : p.potentialUint32Defs.toFinset.filter (Function.update selected i true · = false) =
      (p.potentialUint32Defs.toFinset.filter (selected · = false)).erase i := by
    grind [update_apply]
  rw [unselected, he]
  exact Finset.card_erase_lt_of_mem (by simp [hi, hs])

/-- What one definition can do in an iteration. -/
theorem propagateAt_cases (acc : (ℕ → Bool) × Bool) (i : ℕ) :
    (p.propagateAt acc i = acc ∧ (p.canBecomeUint32 acc.1 i = true → acc.1 i)) ∨
      (acc.1 i = false ∧ p.canBecomeUint32 acc.1 i ∧
        p.propagateAt acc i = (Function.update acc.1 i true, true)) := by
  unfold propagateAt
  by_cases hsel : acc.1 i
  · rw [if_pos hsel]
    exact .inl ⟨rfl, fun _ => hsel⟩
  rw [if_neg hsel]
  by_cases hcan : p.canBecomeUint32 acc.1 i
  · rw [if_pos hcan]
    exact .inr ⟨Bool.eq_false_iff.mpr hsel, hcan, rfl⟩
  · rw [if_neg hcan]
    exact .inl ⟨rfl, fun h => absurd h hcan⟩

/-- An iteration has found nothing to select, or it has selected a definition. -/
theorem foldl_propagateAt_cases (l : List ℕ) (hl : ∀ i ∈ l, i ∈ p.potentialUint32Defs)
    (acc : (ℕ → Bool) × Bool) :
    (l.foldl p.propagateAt acc = acc ∧
      ∀ i ∈ l, p.canBecomeUint32 acc.1 i → acc.1 i) ∨
    ((l.foldl p.propagateAt acc).2 = true ∧
      p.unselected (l.foldl p.propagateAt acc).1 < p.unselected acc.1) := by
  induction l generalizing acc with
  | nil => exact .inl ⟨rfl, nofun⟩
  | cons i l ih =>
    obtain ⟨hi, hl⟩ := forall_mem_cons.mp hl
    rw [foldl_cons]
    rcases p.propagateAt_cases acc i with ⟨ha, hs⟩ | ⟨hs, -, ha⟩ <;> rw [ha]
    · rcases ih hl acc with ⟨heq, hal⟩ | hc
      · exact .inl ⟨heq, forall_mem_cons.mpr ⟨hs, hal⟩⟩
      · exact .inr hc
    have hlt := p.unselected_update_lt hi hs
    rcases ih hl (Function.update acc.1 i true, true) with ⟨heq, -⟩ | ⟨hc, hlt'⟩
    · rw [heq]
      exact .inr ⟨rfl, hlt⟩
    · exact .inr ⟨hc, hlt'.trans hlt⟩

/-- The set is closed under `CanBecomeUint32`. -/
def Closed (S : ℕ → Bool) : Prop :=
  ∀ i ∈ p.potentialUint32Defs, p.canBecomeUint32 S i → S i

theorem canBecomeUint32_mono {selected S : ℕ → Bool} (hle : selected ≤ S) {i : ℕ}
    (hc : p.canBecomeUint32 selected i) : p.canBecomeUint32 S i := by
  have hu (h : p.usesCanBecomeUint32 selected i) : p.usesCanBecomeUint32 S i := by
    simp only [usesCanBecomeUint32, allUsesAreUint32Narrowing, Bool.and_eq_true, List.all_eq_true,
      Bool.or_eq_true] at h ⊢
    exact ⟨⟨h.1.1, fun j hj => (h.1.2 j hj).imp_right (.imp_right (hle j))⟩,
      fun j hj => (h.2 j hj).imp_right (.imp_right (hle j))⟩
  unfold canBecomeUint32 at hc ⊢
  split at hc
  · exact hle _ hc
  · rw [Bool.and_eq_true] at hc ⊢
    exact hc.imp_right hu
  · exact hu hc
  · exact hc

/-- An iteration selects only what a closed set has anyway. -/
theorem foldl_propagateAt_le_iff {S : ℕ → Bool} (hS : p.Closed S) (l : List ℕ)
    (hl : ∀ i ∈ l, i ∈ p.potentialUint32Defs) (acc : (ℕ → Bool) × Bool) :
    (l.foldl p.propagateAt acc).1 ≤ S ↔ acc.1 ≤ S := by
  induction l generalizing acc with
  | nil => rfl
  | cons i l ih =>
    obtain ⟨hi, hl⟩ := forall_mem_cons.mp hl
    rw [foldl_cons, ih hl]
    rcases p.propagateAt_cases acc i with ⟨heq, -⟩ | ⟨hs, hcan, heq⟩ <;> rw [heq]
    refine ⟨fun h => le_trans (le_update_self_iff.mpr ?_) h, fun h => ?_⟩
    · rw [hs]
      exact Bool.false_le _
    · exact update_le_iff.mpr ⟨fun _ => hS i hi (p.canBecomeUint32_mono h hcan), fun j _ => h j⟩

theorem propagate_isLeast (rounds : ℕ) (selected : ℕ → Bool)
    (hr : p.unselected selected < rounds) :
    IsLeast {S | selected ≤ S ∧ p.Closed S} (p.propagate rounds selected) := by
  induction rounds generalizing selected with
  | zero => exact absurd hr (Nat.not_lt_zero _)
  | succ rounds ih =>
    rw [propagate, propagateOnce]
    rcases p.foldl_propagateAt_cases _ (fun _ h => h) (selected, false) with ⟨heq, hl⟩ |
      ⟨hc, hlt⟩
    · rw [heq]
      exact ⟨⟨le_rfl, hl⟩, fun S hS => hS.1⟩
    · rw [if_pos hc]
      have h := ih _ (hlt.trans_le (Nat.le_of_lt_succ hr))
      have hs : {S | selected ≤ S ∧ p.Closed S} = {S | _ ≤ S ∧ p.Closed S} :=
        Set.ext fun S => and_congr_left fun hS =>
          (p.foldl_propagateAt_le_iff hS _ (fun _ h => h) (selected, false)).symm
      rwa [hs]

/-- **`Propagate` computes a least fixed point**: of the sets with all the masks that are closed
under `CanBecomeUint32`, the selected one is the least. -/
theorem select_isLeast : IsLeast {S | p.initialSet ≤ S ∧ p.Closed S} p.select :=
  p.propagate_isLeast _ _ (Nat.lt_succ_of_le
    ((Finset.card_filter_le _ _).trans (toFinset_card_le _)))

end FixedPoint

section Justification

variable (p : Program W)

/-- Why a definition may be selected. -/
inductive Justified (selected : ℕ → Bool) (i : ℕ) : Prop
  | mask (h : p.isUint32NarrowingDefinition i = true)
  | box (value : ℕ) (hi : p.code[i]? = some (.mint (.boxInt64 value)))
      (h : p.isUint32NarrowingDefinition value = true)
  | uses (m : MintInstr) (hi : p.code[i]? = some (.mint m)) (hbox : ∀ v, m ≠ .boxInt64 v)
      (huses : ∀ j, i ∈ p.inputsAt j → selected j = true)
      (hshr : ∀ l r, m = .shiftMintOp .shr l r → p.rangeIsWithin l 0 kMaxUint32 = true)

variable {p} {selected : ℕ → Bool} {i : ℕ}

theorem Justified.mono {selected' : ℕ → Bool} (h : p.Justified selected i)
    (hle : ∀ j, selected j → selected' j) : p.Justified selected' i := by
  cases h with
  | mask h => exact .mask h
  | box value hi h => exact .box value hi h
  | uses m hi hb hu hs => exact .uses m hi hb (fun j hj => hle j (hu j hj)) hs

theorem mint_of_isUint32NarrowingDefinition (h : p.isUint32NarrowingDefinition i) :
    (∃ l r, p.code[i]? = some (.mint (.binaryMintOp .bitAnd l r))) ∧
      p.rangeIsWithin i 0 kMaxUint32 = true := by
  unfold isUint32NarrowingDefinition at h
  split at h
  case h_1 l r hi => exact ⟨⟨l, r, hi⟩, h⟩
  case h_2 => cases h

theorem Justified.exists_mint (h : p.Justified selected i) : ∃ m, p.code[i]? = some (.mint m) := by
  cases h with
  | mask h =>
    obtain ⟨⟨l, r, hi⟩, -⟩ := mint_of_isUint32NarrowingDefinition h
    exact ⟨_, hi⟩
  | box _ hi h => exact ⟨_, hi⟩
  | uses m hi _ _ _ => exact ⟨m, hi⟩

theorem mem_inputsAt {instr : Instr W} {d : ℕ} (hi : p.code[i]? = some instr)
    (hd : d ∈ instr.inputs) : d ∈ p.inputsAt i := by
  rw [inputsAt, hi]
  exact hd

theorem lt_length_of_mem_inputsAt {d : ℕ} (h : d ∈ p.inputsAt i) : i < p.code.length := by
  by_contra hle
  rw [inputsAt, getElem?_eq_none (Nat.le_of_not_lt hle)] at h
  cases h

theorem selected_of_usesCanBecomeUint32
    (h : p.usesCanBecomeUint32 selected i) (j : ℕ) (hj : i ∈ p.inputsAt j) :
    selected j := by
  unfold usesCanBecomeUint32 at h
  simp only [Bool.and_eq_true] at h
  have ha := List.all_eq_true.mp h.1.2 j (mem_range.mpr (lt_length_of_mem_inputsAt hj))
  have hb : p.hasSSATemp j ∧ selected j := by simpa [hj] using ha
  exact hb.2

theorem representations_at {m : MintInstr} (hi : p.code[i]? = some (.mint m)) :
    m.inputs.map (representationOf p.code) = m.requiredInputRepresentations :=
  p.representations (.mint m) (mem_of_getElem? hi)

theorem not_box_of_box {value v : ℕ} (hi : p.code[i]? = some (.mint (.boxInt64 value))) :
    p.code[value]? ≠ some (.mint (.boxInt64 v)) := by
  intro hv
  have h := representations_at hi
  simp [inputs, requiredInputRepresentations, representationOf, hv,
    Instr.representation] at h

/-- What `Propagate` selects next is justified.  The point is the box: its input, if selected for
its uses, would have had to come after the box. -/
theorem justified_of_canBecomeUint32
    (ha : ∀ j, selected j → p.Justified selected j) (hi : selected i = false)
    (hcn : p.canBecomeUint32 selected i) : p.Justified selected i := by
  unfold canBecomeUint32 at hcn
  split at hcn
  case h_1 value hc =>
    cases ha value hcn with
    | mask h => exact .box value hc h
    | box v hv h => exact absurd hv (not_box_of_box hc)
    | uses m _ hb hu hsh =>
      have hs := hu i (mem_inputsAt hc (mem_singleton_self value))
      rw [hi] at hs
      cases hs
  case h_2 left right hc =>
    rw [Bool.and_eq_true] at hcn
    refine .uses _ hc (nofun) (selected_of_usesCanBecomeUint32 hcn.2) ?_
    intro l r h
    cases h
    exact hcn.1
  case h_3 m hb hsh hc =>
    exact .uses m hc hb (selected_of_usesCanBecomeUint32 hcn) fun l r h => absurd h (hsh l r)
  case h_4 => cases hcn

theorem foldl_propagateAt_justified (l : List ℕ) (acc : (ℕ → Bool) × Bool)
    (ha : ∀ i, acc.1 i → p.Justified acc.1 i) :
    ∀ i, (l.foldl p.propagateAt acc).1 i → p.Justified (l.foldl p.propagateAt acc).1 i := by
  induction l generalizing acc with
  | nil => exact ha
  | cons i l ih =>
    rw [foldl_cons]
    rcases p.propagateAt_cases acc i with ⟨heq, -⟩ | ⟨hs, hcan, heq⟩
    · rw [heq]
      exact ih acc ha
    rw [heq]
    refine ih _ fun j hj => ?_
    have hle : ∀ k, acc.1 k → Function.update acc.1 i true k := by
      intro k hk
      by_cases hki : k = i
      · rw [hki, update_self]
      · rw [update_of_ne hki, hk]
    by_cases hji : j = i
    · rw [hji]
      exact (justified_of_canBecomeUint32 ha hs hcan).mono hle
    · refine (ha j ?_).mono hle
      rw [← hj]
      exact (update_of_ne hji _ _).symm

theorem propagate_justified (rounds : ℕ) (selected : ℕ → Bool)
    (h : ∀ i, selected i → p.Justified selected i) :
    ∀ i, p.propagate rounds selected i → p.Justified (p.propagate rounds selected) i := by
  induction rounds generalizing selected with
  | zero => exact h
  | succ rounds ih =>
    have ho := foldl_propagateAt_justified p.potentialUint32Defs (selected, false) h
    by_cases hchanged : (p.propagateOnce selected).2
    · rw [propagate, if_pos hchanged]
      exact ih _ ho
    · rw [propagate, if_neg hchanged]
      exact ho

/-- **Every selected definition is justified.** -/
theorem select_justified (h : p.select i) : p.Justified p.select i := by
  refine propagate_justified _ _ ?_ i h
  intro j hj
  rw [initialSet, Bool.and_eq_true] at hj
  exact .mask hj.2

end Justification

end Program

section LowHalf

@[simp] theorem low_ofLow (a : BitVec 32) : low (ofLow a) = a :=
  BitVec.setWidth_setWidth_of_le a (by decide)

theorem ofLow_low {a : Value} (h : a.toNat < 2 ^ 32) : ofLow (low a) = a := by
  apply BitVec.eq_of_toNat_eq
  simp only [ofLow, low, BitVec.toNat_setWidth]
  omega

theorem low_eval (op : MintOp) (a b : Value) : low (op.eval a b) = op.eval (low a) (low b) := by
  cases op with
  | bitAnd => exact BitVec.setWidth_and
  | bitOr => exact BitVec.setWidth_or
  | bitXor => exact BitVec.setWidth_xor
  | add => exact BitVec.setWidth_add a b (by decide)
  | sub =>
    simp only [low, MintOp.eval, BitVec.sub_eq_add_neg]
    rw [BitVec.setWidth_add _ _ (by decide), BitVec.setWidth_neg_of_le (by decide)]
  | mul => exact BitVec.setWidth_mul a b (by decide)

/-- A right shift commutes with the truncation only if there is nothing to shift in. -/
theorem low_evalMint (op : ShiftOp) (a : Value) (count : ℕ) (h : op = .shr → a.toNat < 2 ^ 32) :
    low (op.evalMint a count) = op.evalUint32 (low a) count := by
  cases op with
  | shl => exact BitVec.setWidth_shiftLeft_of_le (by decide)
  | shr =>
    have ha := h rfl
    have hm : a.msb = false := by
      rw [BitVec.msb_eq_decide]
      exact decide_eq_false (by omega)
    apply BitVec.eq_of_toNat_eq
    simp only [low, ShiftOp.evalMint, ShiftOp.evalUint32, BitVec.sshiftRight_eq_of_msb_false hm,
      BitVec.toNat_setWidth, BitVec.toNat_ushiftRight]
    rw [Nat.mod_eq_of_lt ha, Nat.mod_eq_of_lt]
    exact (Nat.shiftRight_le _ _).trans_lt ha

variable {env env' : ℕ → Value}

/-- The replacement computes the low half of the value, from operands that agree in their low
halves and a shift count that agrees exactly. -/
theorem evalUint32_eq (m : MintInstr) (hlw : ∀ d, low (env' d) = low (env d))
    (hc : ∀ op l r, m = .shiftMintOp op l r → env' r = env r)
    (hs : ∀ l r, m = .shiftMintOp .shr l r → (env l).toNat < 2 ^ 32) :
    m.evalUint32 env' = ofLow (low (m.evalMint env)) := by
  cases m with
  | binaryMintOp op l r =>
    simp only [evalUint32, evalMint, hlw, low_eval]
  | shiftMintOp op l r =>
    have hl : op = .shr → (env l).toNat < 2 ^ 32 := by
      rintro rfl
      exact hs l r rfl
    simp only [evalUint32, evalMint, hlw, hc op l r rfl,
      low_evalMint op _ _ hl]
  | unaryMintOp v =>
    simp only [evalUint32, evalMint, hlw]
    rw [low, low, BitVec.setWidth_not (by decide)]
  | boxInt64 v | unboxInt64 v => simp only [evalUint32, evalMint, hlw]

theorem evalMint_congr (m : MintInstr)
    (h : ∀ d ∈ m.inputs, env' d = env d) : m.evalMint env' = m.evalMint env := by
  cases m <;> simp_all [evalMint, inputs]

end LowHalf

variable {p : Program W} {s : State W}

section Ranges

theorem toInt_of_rangeIsWithin {d : ℕ} {v : Value} {min max : ℤ}
    (hd : p.rangeIsWithin d min max) (hv : ((p.range d).all fun b => b.holds v) = true) :
    min ≤ v.toInt ∧ v.toInt ≤ max := by
  rw [rangeIsWithin, Option.any_eq_true] at hd
  obtain ⟨b, hb, hw⟩ := hd
  rw [Bounds.isWithin, Bool.and_eq_true, Option.any_eq_true, Option.any_eq_true] at hw
  obtain ⟨⟨l, hl, hm⟩, u, hu, hmax⟩ := hw
  rw [hb, all_some, Bounds.holds, hl, hu] at hv
  simp only [all_some, Bool.and_eq_true, decide_eq_true_eq] at hv hm hmax
  exact ⟨hm.trans hv.1, hv.2.trans hmax⟩

theorem toNat_lt_of_rangeIsWithin {d : ℕ} {v : Value}
    (hd : p.rangeIsWithin d 0 kMaxUint32)
    (hv : ((p.range d).all fun b => b.holds v) = true) : v.toNat < 2 ^ 32 := by
  obtain ⟨h0, hm⟩ := toInt_of_rangeIsWithin hd hv
  unfold kMaxUint32 at hm
  rw [BitVec.toInt_eq_toNat_cond] at h0 hm
  have := v.isLt
  split at hm <;> omega

theorem input_in_range (h : p.rangesHold s) {d : ℕ} (hd : d ∈ p.inputsAt s.pc) :
    ((p.range d).all fun b => b.holds (s.env d)) = true := by
  rw [rangesHold, Bool.and_eq_true] at h
  exact List.all_eq_true.mp h.1 d hd

theorem result_in_range (h : p.rangesHold s) {s' : State W} (hs : stepMint p s = some s') :
    ((p.range s.pc).all fun b => b.holds (s'.env s.pc)) = true := by
  rw [rangesHold, Bool.and_eq_true, hs] at h
  exact h.2

/-- A shift that does not deoptimize is by a count that is not negative: either the count has been
checked, or its range is known. -/
theorem count_nonneg (h : p.rangesHold s) {op : ShiftOp} {l r : ℕ}
    (hi : p.code[s.pc]? = some (.mint (.shiftMintOp op l r))) (hd : p.deoptimizes s = false) :
    0 ≤ (s.env r).toInt := by
  by_cases hcheck : p.hasShiftCountCheck r
  · rw [deoptimizes, hi] at hd
    simp only [deoptimizesMint, hcheck, Bool.true_and, Bool.or_eq_false_iff,
      decide_eq_false_iff_not] at hd
    omega
  · have hw : p.rangeIsWithin r 0 kMintShiftCountLimit := by
      simpa [hasShiftCountCheck] using hcheck
    have hr : r ∈ p.inputsAt s.pc := mem_inputsAt hi (by simp [Instr.inputs, inputs])
    exact (toInt_of_rangeIsWithin hw (input_in_range h hr)).1

end Ranges

section Narrowing

/-- The replacement of the definition has the very same value: it is not replaced, or it is a mask
or a box. -/
def Program.IsExact (p : Program W) (d : ℕ) : Prop :=
  p.select d = true → p.isUint32NarrowingDefinition d = true ∨
    ∃ v, p.code[d]? = some (.mint (.boxInt64 v))

variable {i : ℕ} {s' : State W} {m : MintInstr}

theorem unselected_of_other {rep : Representation} {inputs : List ℕ}
    {effect : List Value → W → Value × W × ℕ}
    (hi : p.code[i]? = some (.other rep inputs effect)) : p.select i = false := by
  apply Bool.eq_false_iff.mpr
  intro hs
  obtain ⟨m, hm⟩ := (select_justified hs).exists_mint
  rw [hi] at hm
  cases hm

theorem isExact_of_input {d : ℕ} (hi : p.select i = false) (hd : d ∈ p.inputsAt i) :
    p.IsExact d := by
  intro hs
  cases select_justified hs with
  | mask h => exact .inl h
  | box v hv h => exact .inr ⟨v, hv⟩
  | uses m _ _ hu _ =>
    have := hu i hd
    rw [hi] at this
    cases this

theorem isExact_of_tagged {d : ℕ} (hd : representationOf p.code d = .tagged) : p.IsExact d := by
  intro hs
  cases select_justified hs with
  | mask h => exact .inl h
  | box v hv h => exact .inr ⟨v, hv⟩
  | uses m hm hb _ _ =>
    rw [representationOf, hm] at hd
    cases m with
    | boxInt64 v => exact absurd rfl (hb v)
    | binaryMintOp op l r | shiftMintOp op l r | unaryMintOp v | unboxInt64 v => cases hd

theorem isExact_shift_count {l r : ℕ} {op : ShiftOp}
    (hi : p.code[i]? = some (.mint (.shiftMintOp op l r))) : p.IsExact r := by
  have h := representations_at hi
  simp only [inputs, requiredInputRepresentations, map_cons,
    List.cons.injEq] at h
  exact isExact_of_tagged h.2.1

/-- The left operand of a selected right shift is in the Uint32 range. -/
theorem range_of_selected_shr {l r : ℕ} (hs : p.select i)
    (hi : p.code[i]? = some (.mint (.shiftMintOp .shr l r))) :
    p.rangeIsWithin l 0 kMaxUint32 := by
  cases select_justified hs with
  | mask h =>
    obtain ⟨⟨_, _, hi'⟩, -⟩ := mint_of_isUint32NarrowingDefinition h
    rw [hi] at hi'
    cases hi'
  | box v hv h =>
    rw [hi] at hv
    cases hv
  | uses m hm _ _ hsh =>
    rw [hi] at hm
    cases hm
    exact hsh l r rfl

structure Agrees (p : Program W) (s s' : State W) : Prop where
  pc : s'.pc = s.pc
  world : s'.world = s.world
  low : ∀ d, low (s'.env d) = low (s.env d)
  exact : ∀ d, p.IsExact d → s'.env d = s.env d

theorem Agrees.refl (p : Program W) (s : State W) : Agrees p s s :=
  ⟨rfl, rfl, fun _ => rfl, fun _ _ => rfl⟩

theorem Agrees.define (h : Agrees p s s') {v v' : Value} (w : W) (pc : ℕ)
    (hl : IntegerInstructionSelector.low v' = IntegerInstructionSelector.low v)
    (he : p.IsExact s.pc → v' = v) :
    Agrees p (s.define v w pc) (s'.define v' w pc) := by
  refine ⟨rfl, rfl, fun d => ?_, fun d hd => ?_⟩
  · by_cases hds : d = s.pc
    · simp only [State.define, h.pc, hds, update_self, hl]
    · simp only [State.define, h.pc, update_of_ne hds, h.low]
  · by_cases hds : d = s.pc
    · subst hds
      simp only [State.define, h.pc, update_self, he hd]
    · simp only [State.define, h.pc, update_of_ne hds, h.exact d hd]

section

variable (hi : p.code[s.pc]? = some (.mint m)) (hd : p.deoptimizes s = false)

include hi hd

theorem stepMint_mint : stepMint p s = some (s.define (m.evalMint s.env) s.world (s.pc + 1)) := by
  simp [stepMint, step, hi, hd]

theorem toNat_lt_of_isExact (hr : p.rangesHold s) (hs : p.select s.pc) (he : p.IsExact s.pc) :
    (m.evalMint s.env).toNat < 2 ^ 32 := by
  have hms (h : p.isUint32NarrowingDefinition s.pc) :
      (m.evalMint s.env).toNat < 2 ^ 32 := by
    have hrs := result_in_range hr (stepMint_mint hi hd)
    simp only [State.define, update_self] at hrs
    exact toNat_lt_of_rangeIsWithin (mint_of_isUint32NarrowingDefinition h).2 hrs
  rcases he hs with h | ⟨v, hv⟩
  · exact hms h
  rw [hi] at hv
  cases hv
  cases select_justified hs with
  | mask h => exact hms h
  | box value hvl h =>
    rw [hi] at hvl
    cases hvl
    exact toNat_lt_of_rangeIsWithin (mint_of_isUint32NarrowingDefinition h).2
      (input_in_range hr (mem_inputsAt hi (mem_singleton_self v)))
  | uses m hm hb _ _ =>
    rw [hi] at hm
    cases hm
    exact absurd rfl (hb v)

theorem step_agrees_selected (h : Agrees p s s') (hr : p.rangesHold s) (hs : p.select s.pc) :
    Option.Rel (Agrees p) (stepMint p s) (step p p.select s') := by
  have hc : ∀ op l r, m = .shiftMintOp op l r → s'.env r = s.env r := by
    rintro op l r rfl
    exact h.exact r (isExact_shift_count hi)
  have hsh : ∀ l r, m = .shiftMintOp .shr l r → (s.env l).toNat < 2 ^ 32 := by
    rintro l r rfl
    exact toNat_lt_of_rangeIsWithin (range_of_selected_shr hs hi)
      (input_in_range hr (mem_inputsAt hi mem_cons_self))
  have hdp : m.deoptimizesUint32 s'.env = false := by
    cases m with
    | shiftMintOp op l r =>
      have hn := count_nonneg hr hi hd
      simp only [deoptimizesUint32, hc op l r rfl, decide_eq_false_iff_not]
      omega
    | binaryMintOp op l r | unaryMintOp v | boxInt64 v | unboxInt64 v => rfl
  have hst : step p p.select s' = some (s'.define (m.evalUint32 s'.env) s.world (s.pc + 1)) := by
    simp [step, h.pc, hi, hs, hdp, h.world]
  have he := evalUint32_eq m h.low hc hsh
  rw [stepMint_mint hi hd, hst]
  refine Option.Rel.some (h.define _ _ ?_ ?_)
  · rw [he, low_ofLow]
  · intro hex
    rw [he, ofLow_low (toNat_lt_of_isExact hi hd hr hs hex)]

theorem step_agrees_unselected (h : Agrees p s s') (hs : p.select s.pc = false) :
    Option.Rel (Agrees p) (stepMint p s) (step p p.select s') := by
  have hin : ∀ d ∈ m.inputs, s'.env d = s.env d := by
    intro d hdm
    exact h.exact d (isExact_of_input hs (mem_inputsAt hi hdm))
  have hd' : p.deoptimizes s' = false := by
    rw [← hd]
    simp only [deoptimizes, h.pc, hi]
    cases m <;> simp_all [deoptimizesMint, inputs]
  have hst : step p p.select s' = some (s'.define (m.evalMint s.env) s.world (s.pc + 1)) := by
    simp [step, h.pc, hi, hs, hd', h.world, evalMint_congr m hin]
  rw [stepMint_mint hi hd, hst]
  exact Option.Rel.some (h.define _ _ rfl fun _ => rfl)

end

/-- **The step lemma.** -/
theorem step_agrees (h : Agrees p s s') (hr : p.rangesHold s)
    (hd : ¬p.deoptimizes s) :
    Option.Rel (Agrees p) (stepMint p s) (step p p.select s') := by
  rw [Bool.not_eq_true] at hd
  cases hi : p.code[s.pc]? with
  | none =>
    simp only [stepMint, step, h.pc, hi]
    exact Option.Rel.none
  | some instr =>
    cases instr with
    | mint m =>
      cases hs : p.select s.pc with
      | true => exact step_agrees_selected hi hd h hr hs
      | false => exact step_agrees_unselected hi hd h hs
    | other _ inputs _ =>
      have hin : inputs.map s'.env = inputs.map s.env := by
        refine map_congr_left fun d hdm => ?_
        exact h.exact d (isExact_of_input (unselected_of_other hi) (mem_inputsAt hi hdm))
      simp only [stepMint, step, h.pc, hi, hin, h.world]
      exact Option.Rel.some (h.define _ _ rfl fun _ => rfl)

/-- What the narrowed program keeps of a state. -/
structure Preserved (p : Program W) (s s' : State W) : Prop where
  pc : s'.pc = s.pc
  world : s'.world = s.world
  unselected : ∀ d, p.select d = false → s'.env d = s.env d
  read : ∀ (i : ℕ) rep inputs effect, p.code[i]? = some (.other rep inputs effect) →
    ∀ d ∈ inputs, s'.env d = s.env d
  shift_count : ∀ (i : ℕ) op l r, p.code[i]? = some (.mint (.shiftMintOp op l r)) →
    s'.env r = s.env r
  selected : ∀ d, (s'.env d).toNat % 2 ^ 32 = (s.env d).toNat % 2 ^ 32

theorem Agrees.preserved (h : Agrees p s s') : Preserved p s s' where
  pc := h.pc
  world := h.world
  unselected d hd := h.exact d fun hs => nomatch hd.symm.trans hs
  read i rep inputs effect hi d hd :=
    h.exact d (isExact_of_input (unselected_of_other hi) (mem_inputsAt hi hd))
  shift_count i op l r hi := h.exact r (isExact_shift_count hi)
  selected d := by
    have hl := congrArg BitVec.toNat (h.low d)
    simpa only [IntegerInstructionSelector.low, BitVec.toNat_setWidth] using hl

/-- **Narrowing preserves the meaning of a program.**  From any state, as long as the ranges hold
in the run of the program, the narrowed program is at the same instruction after as many steps,
and every definition that is not selected, every value another instruction reads and every shift
count is the same; or the program has left the optimized code before. -/
theorem select_preserves (p : Program W) (s : State W)
    (hranges : Along (stepMint p) (fun s' => p.rangesHold s' = true) s) (n : ℕ) :
    Option.Rel (Preserved p) (run (stepMint p) n s) (run (step p p.select) n s) ∨
      ∃ m < n, ∃ s', run (stepMint p) m s = some s' ∧ p.deoptimizes s' = true := by
  have hrn := run_lockstep (fun _ _ => step_agrees) (.refl p s) hranges n
  rcases hrn with hr | hdp
  · refine .inl ?_
    revert hr
    generalize run (stepMint p) n s = r, run (step p p.select) n s = r'
    intro hr
    cases hr with
    | some h => exact Option.Rel.some h.preserved
    | none => exact Option.Rel.none
  · exact .inr hdp

/-- `(x + x) & 0xFFFFFFFF` for `x = 2 ^ 33 + 5`, boxed and then stored. -/
def maskedSum : Program (List Value) where
  code := [ .other .tagged [] fun _ w => (0x200000005#64, w, 1),
    .mint (.unboxInt64 0),
    .other .tagged [] fun _ w => (0xFFFFFFFF#64, w, 3),
    .mint (.unboxInt64 2),
    .mint (.binaryMintOp .add 1 1),
    .mint (.binaryMintOp .bitAnd 4 3),
    .mint (.boxInt64 5),
    .other .tagged [6] fun vs w => (0#64, vs ++ w, 8)]
  environment _ := []
  range d := if d = 5 then some ⟨some 0, some kMaxUint32⟩ else none
  canOverflow _ := true
  hasSSATemp _ := true
  representations := by decide

theorem select_preserves_maskedSum :
    maskedSum.select 4 = true ∧ maskedSum.select 6 = true ∧
      (Option.Rel (Preserved maskedSum) (run (stepMint maskedSum) 8 ⟨0, fun _ => 0, []⟩)
        (run (step maskedSum maskedSum.select) 8 ⟨0, fun _ => 0, []⟩) ∨
      ∃ m < 8, ∃ s', run (stepMint maskedSum) m ⟨0, fun _ => 0, []⟩ = some s' ∧
        maskedSum.deoptimizes s' = true) := by
  refine ⟨by decide +kernel, by decide +kernel, select_preserves maskedSum _ ?_ 8⟩
  have hs : run (stepMint maskedSum) 9 ⟨0, fun _ => 0, []⟩ = none := by
    rw [← isNone_iff_eq_none]
    decide +kernel
  have hr : ∀ m < 9, (run (stepMint maskedSum) m ⟨0, fun _ => 0, []⟩).all
      maskedSum.rangesHold = true := by
    decide +kernel
  refine along_of_stops hs fun m hm s' hs' => ?_
  have h := hr m hm
  rw [mem_def.mp hs'] at h
  exact h

end Narrowing

end DartSdk.Vm.IntegerInstructionSelector
