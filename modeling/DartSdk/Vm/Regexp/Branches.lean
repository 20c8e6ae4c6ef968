import DartSdk.Lib.Boundaries
import DartSdk.Lib.Entries
import DartSdk.Lib.ForwardCode
import Mathlib.Algebra.Group.Nat.Defs
import Mathlib.Data.Nat.Basic

/-!
# Branches of a character class

A character class is a list of boundaries: below the first of them, and from then on with every
other one, characters go to the odd label, and to the even one otherwise.  `generateBranches` emits
code for this.  It cuts small ranges out, makes tables for pages of characters and splits what is
larger.

* `reaches_test`, `emitDoubleBoundaryTest_reaches`, `emitUseLookupTable_reaches`: the
  code that ends a search;
* `Decides`: what the code for a search space does, with `Decides.cutOutRange`, `Decides.page`,
  `Decides.splitLast` and `Decides.split` for the recursive cases;
* `generateBranches_decides`: **the search ends, and its code decides between the labels.**
-/

namespace DartSdk.Vm.Regexp

open Boundaries ForwardCode List Option

section Model

/-- Labels are compared by identity; the backtracking label `NULL` is one of them. -/
abbrev Label := ℕ

/-- The decisions of the macro assembler. -/
inductive Instr
  | checkCharacter (c : ℕ) (onEqual : Label)
  | checkNotCharacter (c : ℕ) (onNotEqual : Label)
  | checkCharacterGT (limit : ℕ) (onGreater : Label)
  | checkCharacterLT (limit : ℕ) (onLess : Label)
  | checkCharacterInRange (first last : ℕ) (onInRange : Label)
  | checkCharacterNotInRange (first last : ℕ) (onNotInRange : Label)
  | checkBitInTable (table : List Bool) (onBitSet : Label)
  | goTo (label : Label)
  | bindBlock (label : Label)
  deriving DecidableEq

def kTableSizeBits : ℕ := 7
def kTableSize : ℕ := 2 ^ kTableSizeBits
def kMaxOneCharCodeSymbol : ℕ := 0xFF
def kMaxCodeUnit : ℕ := 0xFFFF

/-- Conversion to a parameter of type `uint16_t`. -/
def uint16 (x : ℕ) : ℕ := x % 2 ^ 16

/-- `x & ~kMask` -/
def pageStart (x : ℕ) : ℕ := x / kTableSize * kTableSize

/-- `x & kMask` -/
def pageOffset (x : ℕ) : ℕ := x % kTableSize

/-- The label that a decision goes to for the current character. -/
def Instr.branch (c : ℕ) : Instr → Option Label
  | .checkCharacter x l => if c = x then some l else none
  | .checkNotCharacter x l => if c ≠ x then some l else none
  | .checkCharacterGT limit l => if limit < c then some l else none
  | .checkCharacterLT limit l => if c < limit then some l else none
  | .checkCharacterInRange first last l => if first ≤ c ∧ c ≤ last then some l else none
  | .checkCharacterNotInRange first last l => if first ≤ c ∧ c ≤ last then none else some l
  | .checkBitInTable table l => if table.getD (pageOffset c) false then some l else none
  | .goTo l => some l
  | .bindBlock _ => none

def Instr.binds : Instr → Option Label
  | .bindBlock l => some l
  | _ => none

/-- Where the code goes: `none` if it is left at its end. -/
def execute (c : ℕ) (code : List Instr) : Option Label := run (Instr.branch c) Instr.binds none code

def emitBoundaryTest (border : ℕ) (fallThrough aboveOrEqual below : Label) : List Instr :=
  if below ≠ fallThrough then
    .checkCharacterLT (uint16 border) below ::
      if aboveOrEqual ≠ fallThrough then [.goTo aboveOrEqual] else []
  else [.checkCharacterGT (uint16 (border - 1)) aboveOrEqual]

def emitDoubleBoundaryTest (first last : ℕ) (fallThrough inRange outOfRange : Label) :
    List Instr :=
  if inRange = fallThrough then
    if first = last then [.checkNotCharacter first outOfRange]
    else [.checkCharacterNotInRange (uint16 first) (uint16 last) outOfRange]
  else
    (if first = last then .checkCharacter first inRange
      else .checkCharacterInRange (uint16 first) (uint16 last) inRange) ::
      if outOfRange ≠ fallThrough then [.goTo outOfRange] else []

/-- A loop that sets the entries from `first` up to `limit`. -/
def fill (templ : ℕ → Bool) (first limit : ℕ) (bit : Bool) : ℕ → Bool :=
  fun i => if first ≤ i ∧ i < limit then bit else templ i

/-- The loop over `n` ranges from `i` on, followed by the one that fills the rest of the table;
`j` is left where the previous loop ended. -/
def fillRanges (ranges : List ℕ) (templ : ℕ → Bool) (bit : Bool) (j i : ℕ) : ℕ → ℕ → Bool
  | 0 => fill templ j kTableSize bit
  | n + 1 =>
    let first := pageOffset (ranges.getD i 0)
    let limit := pageOffset (ranges.getD (i + 1) 0)
    fillRanges ranges (fill templ first limit bit) (!bit) (max first limit) (i + 1) n

/-- `EmitUseLookupTable`.  The template is not initialized. -/
def emitUseLookupTable (uninitialized : ℕ → Bool) (ranges : List ℕ) (startIndex endIndex : ℕ)
    (fallThrough evenLabel oddLabel : Label) : List Instr :=
  let bit := decide (evenLabel = fallThrough)
  let onBitSet := if evenLabel = fallThrough then oddLabel else evenLabel
  let onBitClear := if evenLabel = fallThrough then evenLabel else oddLabel
  let templ := fill uninitialized 0 (pageOffset (ranges.getD startIndex 0)) bit
  let templ := fillRanges ranges templ (!bit) 0 startIndex (endIndex - startIndex)
  .checkBitInTable ((List.range kTableSize).map templ) onBitSet ::
    if onBitClear ≠ fallThrough then [.goTo onBitClear] else []

/-- The loop that moves the entries below `j` up by one place, down to `startIndex`. -/
def moveUp (startIndex : ℕ) : ℕ → List ℕ → List ℕ
  | 0, ranges => ranges
  | j + 1, ranges =>
    if startIndex < j + 1 then moveUp startIndex j (ranges.set (j + 1) (ranges.getD j 0))
    else ranges

/-- The loop that moves `n` entries above `j` down by one place. -/
def moveDown (j : ℕ) : ℕ → List ℕ → List ℕ
  | 0, ranges => ranges
  | n + 1, ranges => moveDown (j + 1) n (ranges.set j (ranges.getD (j + 1) 0))

section

variable (ranges : List ℕ) (startIndex endIndex : ℕ)

/-- `CutOutRange`, with the code and the rewritten array. -/
def cutOutRange (startIndex endIndex cutIndex : ℕ)
    (evenLabel oddLabel dummy : Label) : List Instr × List ℕ :=
  let inRangeLabel := if (cutIndex - startIndex) % 2 = 1 then oddLabel else evenLabel
  (emitDoubleBoundaryTest (ranges.getD cutIndex 0) (ranges.getD (cutIndex + 1) 0 - 1) dummy
      inRangeLabel dummy,
    moveDown (cutIndex + 1) (endIndex - (cutIndex + 1)) (moveUp startIndex cutIndex ranges))

/-- The first of `n` indices from `i` on whose entry is above the border, or the index after
them. -/
def scanForward (border i : ℕ) : ℕ → ℕ
  | 0 => i
  | n + 1 => if border < ranges.getD i 0 then i else scanForward border (i + 1) n

/-- The first part of `SplitSearchSpace`: the border of a page, and the index of the first edge that
is beyond it.  For very large search spaces it is not the page of the first boundary but that of the
middle one. -/
def chooseBorder : ℕ × ℕ :=
  let first := ranges.getD startIndex 0
  let last := ranges.getD endIndex 0 - 1
  let border := pageStart first + kTableSize
  let newStart := scanForward ranges border startIndex (endIndex - startIndex)
  let chop := (endIndex + startIndex) / 2
  let newBorder := pageStart (ranges.getD chop 0) + kTableSize
  let scan := scanForward ranges newBorder chop (endIndex - chop)
  if kMaxOneCharCodeSymbol < border - 1 ∧ (newStart - startIndex) * 2 < endIndex - startIndex ∧
      kTableSize * 2 < last - first ∧ newStart < chop ∧
      first + 2 * kTableSize ≤ ranges.getD chop 0 ∧ scan < endIndex then (scan, newBorder)
  else (newStart, border)

/-- `SplitSearchSpace`: `new_start_index`, `new_end_index` and `border`. -/
def splitSearchSpace : ℕ × ℕ × ℕ :=
  let chosen := chooseBorder ranges startIndex endIndex
  if ranges.getD endIndex 0 ≤ chosen.2 then (endIndex, endIndex - 1, ranges.getD endIndex 0)
  else if ranges.getD (chosen.1 - 1) 0 = chosen.2 then (chosen.1, chosen.1 - 2, chosen.2)
  else (chosen.1, chosen.1 - 1, chosen.2)

/-- The first range of a single character, if there is one, and the first range otherwise. -/
def findCut : ℕ :=
  ((List.range' startIndex (endIndex - startIndex)).find? fun i =>
    ranges.getD i 0 = ranges.getD (i + 1) 0 - 1).getD startIndex

end

/-- `GenerateBranches`: the code, the array as it leaves it and the next unused label. -/
def generateBranches (uninitialized : ℕ → Bool) : ℕ → List ℕ → ℕ → ℕ → ℕ → ℕ → Label → Label →
    Label → Label → Option (List Instr × List ℕ × Label)
  | 0, _, _, _, _, _, _, _, _, _ => none
  | fuel + 1, ranges, startIndex, endIndex, minChar, maxChar, fallThrough, evenLabel, oddLabel,
      next =>
    let first := ranges.getD startIndex 0
    let last := ranges.getD endIndex 0 - 1
    if startIndex = endIndex then
      some (emitBoundaryTest first fallThrough evenLabel oddLabel, ranges, next)
    else if startIndex + 1 = endIndex then
      some (emitDoubleBoundaryTest first last fallThrough evenLabel oddLabel, ranges, next)
    else if endIndex - startIndex ≤ 6 then do
      let cut := findCut ranges startIndex endIndex
      let (code, ranges) := cutOutRange ranges startIndex endIndex cut evenLabel oddLabel next
      let (rest, ranges, next) ← generateBranches uninitialized fuel ranges (startIndex + 1)
        (endIndex - 1) minChar maxChar fallThrough evenLabel oddLabel (next + 1)
      return (code ++ rest, ranges, next)
    else if maxChar / kTableSize = minChar / kTableSize then
      some (emitUseLookupTable uninitialized ranges startIndex endIndex fallThrough evenLabel
        oddLabel, ranges, next)
    else if minChar / kTableSize ≠ first / kTableSize then do
      let (rest, ranges, next) ← generateBranches uninitialized fuel ranges (startIndex + 1)
        endIndex (uint16 first) maxChar fallThrough oddLabel evenLabel next
      return (.checkCharacterLT (uint16 first) oddLabel :: rest, ranges, next)
    else do
      let (newStart, newEnd, border) := splitSearchSpace ranges startIndex endIndex
      let handleRest := next
      let dummy := next + 1
      let above :=
        if border = last + 1 then
          if endIndex % 2 ≠ startIndex % 2 then oddLabel else evenLabel
        else handleRest
      let (low, ranges, next) ← generateBranches uninitialized fuel ranges startIndex newEnd
        minChar (uint16 (border - 1)) dummy evenLabel oddLabel (next + 2)
      let code := .checkCharacterGT (uint16 (border - 1)) above :: low
      -- `handle_rest` is linked.
      if above = handleRest then do
        let flip := newStart % 2 ≠ startIndex % 2
        let (high, ranges, next) ← generateBranches uninitialized fuel ranges newStart endIndex
          (uint16 border) maxChar dummy (if flip then oddLabel else evenLabel)
          (if flip then evenLabel else oddLabel) next
        return (code ++ .bindBlock handleRest :: high, ranges, next)
      else return (code, ranges, next)

end Model

variable {c border : ℕ} {fallThrough : Label} {code : List Instr}

section Emitters

variable {first last : ℕ} {above below inRange outOfRange l : Label}

/-- The code goes to the label, or it is left at its end and the label is bound there. -/
def Reaches (c : ℕ) (code : List Instr) (fallThrough l : Label) : Prop :=
  execute c code = some l ∨ execute c code = none ∧ l = fallThrough

theorem uint16_of_lt {x : ℕ} (h : x < 2 ^ 16) : uint16 x = x := Nat.mod_eq_of_lt h

section

variable {i : Instr} {P : Prop} [Decidable P] {yes no : Label}
  (hi : i.branch c = if P then some yes else none) (hys : P → l = yes)

include hi hys

/-- A decision, and a jump if the other label is not where the code is left. -/
theorem reaches_test (hno : ¬P → l = no) :
    Reaches c (i :: if no ≠ fallThrough then [.goTo no] else []) fallThrough l := by
  have hs : step (Instr.branch c) Instr.binds none i = if P then some yes else none := hi
  rw [Reaches, execute, run_cons, hs]
  by_cases hP : P
  · rw [if_pos hP, hys hP]
    refine .inl (run_skip fun j hj => ?_)
    split_ifs at hj
    · rw [mem_singleton.mp hj]
      exact nofun
    · cases hj
  · rw [if_neg hP, hno hP]
    split_ifs with hf
    · exact .inl rfl
    · exact .inr ⟨rfl, not_not.mp hf⟩

theorem reaches_single (hno : ¬P → l = fallThrough) : Reaches c [i] fallThrough l := by
  have hrn : execute c [i] = if P then some yes else none := hi
  rw [Reaches, hrn]
  by_cases hP : P
  · rw [if_pos hP, hys hP]
    exact .inl rfl
  · rw [if_neg hP]
    exact .inr ⟨rfl, hno hP⟩

end

theorem emitDoubleBoundaryTest_reaches (hle : first ≤ last) (hlt : last < 2 ^ 16)
    (hin : first ≤ c → c ≤ last → l = inRange) (ho : c < first ∨ last < c → l = outOfRange) :
    Reaches c (emitDoubleBoundaryTest first last fallThrough inRange outOfRange) fallThrough l := by
  have hlt' : first < 2 ^ 16 := by omega
  rw [emitDoubleBoundaryTest, uint16_of_lt hlt, uint16_of_lt hlt']
  by_cases hfall : inRange = fallThrough
  · rw [if_pos hfall, ← hfall]
    by_cases heq : first = last
    · rw [if_pos heq]
      exact reaches_single rfl (fun hc => ho (by omega)) fun hc => hin (by omega) (by omega)
    rw [if_neg heq]
    have hb : (Instr.checkCharacterNotInRange first last outOfRange).branch c =
        if c < first ∨ last < c then some outOfRange else none := by
      rw [Instr.branch]
      by_cases hc : first ≤ c ∧ c ≤ last
      · rw [if_pos hc, if_neg (by omega)]
      · rw [if_neg hc, if_pos (by omega)]
    exact reaches_single hb ho fun hc => hin (by omega) (by omega)
  · rw [if_neg hfall]
    by_cases heq : first = last
    · rw [if_pos heq]
      exact reaches_test rfl (fun hc => hin (by omega) (by omega)) fun hc => ho (by omega)
    · rw [if_neg heq]
      exact reaches_test rfl (fun hc => hin hc.1 hc.2) fun hc => ho (by omega)

end Emitters

variable {ranges : List ℕ} {k s e : ℕ} {even odd : Label}

section Table

def boundary (ranges : List ℕ) (i : ℕ) : ℕ := ranges.getD i 0

abbrev offset (ranges : List ℕ) (i : ℕ) : ℕ := pageOffset (boundary ranges i)

theorem fillRanges_spec {templ : ℕ → Bool} {bit : Bool} {j i n x : ℕ}
    (ha : Ascending (offset ranges) i (i + n)) (hj : n = 0 → j = offset ranges i)
    (hx : x < kTableSize) (hk : Region (offset ranges) i (i + n) x k) :
    fillRanges ranges templ bit j i n x = if k = 0 then templ x else bit != decide (k % 2 = 0) := by
  induction n generalizing templ bit j i k with
  | zero =>
    rw [fillRanges, fill, hj rfl]
    have hle := hk.le
    have hlt := hk.lt_iff le_rfl le_rfl
    by_cases hk0 : k = 0
    · rw [if_neg (by omega), if_pos hk0]
    · obtain rfl : k = 1 := by omega
      rw [if_pos (by omega), if_neg hk0]
      simp
  | succ n ih =>
    have hlt := ha i (i + 1) le_rfl (by omega) (by omega)
    have heq : i + (n + 1) = i + 1 + n := by omega
    rw [heq] at ha hk
    have ha' := ha.mono (Nat.le_succ i) le_rfl
    have hm := Nat.max_eq_right (Nat.le_of_lt hlt)
    rw [fillRanges]
    cases k with
    | zero =>
      -- below all of them
      have hk' : Region (offset ranges) (i + 1) (i + 1 + n) x 0 :=
        ⟨by omega, fun t _ _ => by omega, fun t ht hte => hk.above t (by omega) hte⟩
      have hx' : x < offset ranges i := hk.above i (by omega) (by omega)
      refine (ih ha' (fun _ => hm) hk').trans ?_
      rw [if_pos rfl, if_pos rfl, fill]
      exact if_neg fun h => Nat.not_le_of_lt hx' h.1
    | succ k =>
      have hx' : offset ranges i ≤ x := hk.below i (by omega) (by omega)
      refine (ih ha' (fun _ => hm) hk.tail).trans ?_
      rw [if_neg (Nat.succ_ne_zero k)]
      by_cases hk0 : k = 0
      · subst hk0
        have hx'' : x < offset ranges (i + 1) := hk.above (i + 1) (by omega) (by omega)
        rw [if_pos rfl, fill]
        refine (if_pos ⟨hx', hx''⟩).trans ?_
        simp
      · rw [if_neg hk0]
        rcases Nat.mod_two_eq_zero_or_one k with hp | hp
        · have hp' : (k + 1) % 2 = 1 := by omega
          simp [hp, hp']
        · have hp' : (k + 1) % 2 = 0 := by omega
          simp [hp, hp']

theorem pageOffset_lt_iff {x y : ℕ} (h : x / kTableSize = y / kTableSize) :
    pageOffset x < pageOffset y ↔ x < y := by
  have hx := Nat.div_add_mod x kTableSize
  have hy := Nat.div_add_mod y kTableSize
  rw [← h] at hy
  rw [pageOffset, pageOffset]
  omega

theorem region_pageOffset (hk : Region (boundary ranges) s e c k)
    (hp : ∀ i, s ≤ i → i ≤ e → boundary ranges i / kTableSize = c / kTableSize) :
    Region (offset ranges) s e (pageOffset c) k where
  le := hk.le
  below i hi hlt := by
    have hle := hk.le
    rw [← not_lt, pageOffset_lt_iff (hp i hi (by omega)).symm, not_lt]
    exact hk.below i hi hlt
  above i hi hie :=
    (pageOffset_lt_iff (hp i (by omega) hie).symm).2 (hk.above i hi hie)

theorem emitUseLookupTable_reaches {uninitialized : ℕ → Bool} {l : Label}
    (ha : Ascending (boundary ranges) s e) (hse : s < e)
    (hp : ∀ i, s ≤ i → i ≤ e → boundary ranges i / kTableSize = c / kTableSize)
    (hk : Region (boundary ranges) s e c k) (hl : l = if k % 2 = 1 then even else odd) :
    Reaches c (emitUseLookupTable uninitialized ranges s e fallThrough even odd) fallThrough l := by
  have hx : pageOffset c < kTableSize := Nat.mod_lt c (by decide)
  have hs : s + (e - s) = e := by omega
  have ha' : Ascending (offset ranges) s (s + (e - s)) := by
    rw [hs]
    intro i j hi hij hj
    rw [pageOffset_lt_iff ((hp i hi (by omega)).trans (hp j (by omega) hj).symm)]
    exact ha i j hi hij hj
  have hk' := region_pageOffset hk hp
  rw [← hs] at hk'
  -- the bit that is looked up
  have hbt (bit : Bool) : fillRanges ranges
      (fill uninitialized 0 (pageOffset (ranges.getD s 0)) bit) (!bit) 0 s (e - s) (pageOffset c) =
        (bit != decide (k % 2 = 1)) := by
    rw [fillRanges_spec ha' (fun h => by omega) hx hk']
    by_cases hk0 : k = 0
    · subst hk0
      have hlw : pageOffset c < pageOffset (ranges.getD s 0) := hk'.above s (by omega) (by omega)
      rw [if_pos rfl, fill, if_pos ⟨Nat.zero_le _, hlw⟩]
      simp
    · rw [if_neg hk0]
      rcases Nat.mod_two_eq_zero_or_one k with hpr | hpr <;> simp [hpr]
  have hb (bit : Bool) (yes : Label) : (Instr.checkBitInTable
      ((List.range kTableSize).map (fillRanges ranges
        (fill uninitialized 0 (pageOffset (ranges.getD s 0)) bit) (!bit) 0 s (e - s))) yes).branch c =
      if (bit != decide (k % 2 = 1)) = true then some yes else none := by
    rw [Instr.branch, getD_eq_getElem?_getD, getElem?_map, getElem?_range hx,
      map_some, getD_some, hbt]
  rw [emitUseLookupTable]
  by_cases heven : even = fallThrough
  · have ho : decide (even = fallThrough) = true := decide_eq_true heven
    rw [ho, if_pos heven, if_pos heven]
    refine reaches_test (hb true odd) (fun h => ?_) fun h => ?_
    · rw [hl, if_neg (by simpa using h)]
    · rw [hl, if_pos (by simpa using h)]
  · have hz : decide (even = fallThrough) = false := decide_eq_false heven
    rw [hz, if_neg heven, if_neg heven]
    refine reaches_test (hb false even) (fun h => ?_) fun h => ?_
    · rw [hl, if_pos (by simpa using h)]
    · rw [hl, if_neg (by simpa using h)]

end Table

section Arrays

variable {i j n x : ℕ}

theorem boundary_set (hi : i < ranges.length) :
    boundary (ranges.set i x) j = if i = j then x else boundary ranges j :=
  Entries.getD_set hi x 0 j

theorem length_moveUp (j : ℕ) (ranges : List ℕ) : (moveUp s j ranges).length = ranges.length := by
  induction j generalizing ranges with
  | zero => rfl
  | succ j ih =>
    rw [moveUp]
    split_ifs
    · rw [ih, length_set]
    · rfl

theorem boundary_moveUp (hj : j < ranges.length) :
    boundary (moveUp s j ranges) i =
      if s < i ∧ i ≤ j then boundary ranges (i - 1) else boundary ranges i := by
  induction j generalizing ranges with
  | zero => rw [moveUp, if_neg (by omega)]
  | succ j ih =>
    rw [moveUp]
    by_cases hs : s < j + 1
    · rw [if_pos hs, ih (by rw [length_set]; omega), boundary_set hj, boundary_set hj]
      by_cases hi : s < i ∧ i ≤ j
      · rw [if_pos hi, if_neg (by omega), if_pos (by omega)]
      rw [if_neg hi]
      by_cases hij : j + 1 = i
      · subst hij
        rw [if_pos rfl, if_pos (by omega)]
        rfl
      · rw [if_neg hij, if_neg (by omega)]
    · rw [if_neg hs, if_neg (by omega)]

theorem length_moveDown (j n : ℕ) (ranges : List ℕ) :
    (moveDown j n ranges).length = ranges.length := by
  induction n generalizing j ranges with
  | zero => rfl
  | succ n ih => rw [moveDown, ih, length_set]

theorem boundary_moveDown (hn : j + n ≤ ranges.length) :
    boundary (moveDown j n ranges) i =
      if j ≤ i ∧ i < j + n then boundary ranges (i + 1) else boundary ranges i := by
  induction n generalizing j ranges with
  | zero => rw [moveDown, if_neg (by omega)]
  | succ n ih =>
    rw [moveDown, ih (by rw [length_set]; omega), boundary_set (by omega), boundary_set (by omega)]
    by_cases hi : j + 1 ≤ i ∧ i < j + 1 + n
    · rw [if_pos hi, if_neg (by omega), if_pos (by omega)]
    rw [if_neg hi]
    by_cases hij : j = i
    · subst hij
      rw [if_pos rfl, if_pos (by omega)]
      rfl
    · rw [if_neg hij, if_neg (by omega)]

theorem findCut_mem (h : s < e) : s ≤ findCut ranges s e ∧ findCut ranges s e < e := by
  rw [findCut]
  cases hf : (List.range' s (e - s)).find? fun i =>
      decide (ranges.getD i 0 = ranges.getD (i + 1) 0 - 1) with
  | none => exact ⟨le_rfl, h⟩
  | some i =>
    have hm := mem_range'_1.mp (mem_of_find?_eq_some hf)
    show s ≤ i ∧ i < e
    omega

theorem scanForward_spec (ranges : List ℕ) (border i n : ℕ) :
    i ≤ scanForward ranges border i n ∧ scanForward ranges border i n ≤ i + n ∧
      (∀ t, i ≤ t → t < scanForward ranges border i n → boundary ranges t ≤ border) ∧
      (scanForward ranges border i n < i + n →
        border < boundary ranges (scanForward ranges border i n)) := by
  induction n generalizing i with
  | zero =>
    rw [scanForward]
    exact ⟨le_rfl, le_rfl, fun t _ _ => by omega, fun h => by omega⟩
  | succ n ih =>
    rw [scanForward]
    split_ifs with hb
    · exact ⟨le_rfl, by omega, fun t _ _ => by omega, fun _ => hb⟩
    obtain ⟨h1, h2, h3, h4⟩ := ih (i + 1)
    refine ⟨by omega, by omega, fun t ht hlt => ?_, fun h => h4 (by omega)⟩
    by_cases hti : t = i
    · subst hti
      exact le_of_not_gt hb
    · exact h3 t (by omega) hlt

theorem lt_pageStart (x : ℕ) : x < pageStart x + kTableSize := by
  have h1 := Nat.div_add_mod x kTableSize
  have h2 := Nat.mod_lt x (show 0 < kTableSize by decide)
  rw [pageStart, Nat.mul_comm]
  omega

/-- A border, and the first index beyond it. -/
structure Candidate (ranges : List ℕ) (s e newStart border : ℕ) : Prop where
  start_lt : s < newStart
  le_end : newStart ≤ e
  le_border : ∀ i, s ≤ i → i < newStart → boundary ranges i ≤ border
  border_lt : newStart < e → border < boundary ranges newStart
  first_lt : boundary ranges s < border

/-- The candidate from an index on whose boundary is below the border. -/
theorem candidate_scanForward (ha : Ascending (boundary ranges) s e) (hi : s ≤ i) (hie : i < e)
    {border : ℕ} (hb : boundary ranges i < border) :
    Candidate ranges s e (scanForward ranges border i (e - i)) border := by
  obtain ⟨h1, h2, h3, h4⟩ := scanForward_spec ranges border i (e - i)
  have hne : scanForward ranges border i (e - i) ≠ i := by
    intro heq
    have := h4 (by omega)
    rw [heq] at this
    omega
  refine ⟨by omega, by omega, fun t ht hlt => ?_, fun h => h4 (by omega), ?_⟩
  · by_cases hti : t ≤ i
    · exact Nat.le_trans (ha.le ht hti (by omega)) (Nat.le_of_lt hb)
    · exact h3 t (by omega) hlt
  · exact lt_of_le_of_lt (ha.le le_rfl hi (by omega)) hb

/-- The search space below a border and, unless that is the last boundary, above it. -/
structure Split (ranges : List ℕ) (s e newStart newEnd border : ℕ) : Prop where
  start_lt : s < newStart
  le_end : newStart ≤ e
  start_le : s ≤ newEnd
  lt_end : newEnd < e
  first_lt : boundary ranges s < border
  low : boundary ranges newEnd < border
  high : ∀ i, newEnd < i → i ≤ e → border ≤ boundary ranges i
  rest : border = boundary ranges e ∨ border < boundary ranges e ∧
    border < boundary ranges newStart ∧ ∀ i, s ≤ i → i < newStart → boundary ranges i ≤ border

theorem Candidate.split (ha : Ascending (boundary ranges) s e) {newStart border : ℕ}
    (h : Candidate ranges s e newStart border) {p : ℕ × ℕ × ℕ}
    (hp : p = if boundary ranges e ≤ border then (e, e - 1, boundary ranges e)
      else if boundary ranges (newStart - 1) = border then (newStart, newStart - 2, border)
      else (newStart, newStart - 1, border)) : Split ranges s e p.1 p.2.1 p.2.2 := by
  obtain ⟨hst, hen, hle, hlt, hf⟩ := h
  have hl : ∀ i, s ≤ i → i < e → boundary ranges i < boundary ranges e :=
    fun i hi hie => ha i e hi hie le_rfl
  have hb (he : ¬boundary ranges e ≤ border) : border < boundary ranges newStart := by
    rcases Nat.eq_or_lt_of_le hen with rfl | hne
    · omega
    · exact hlt hne
  split_ifs at hp with he heq <;> subst hp <;> dsimp only
  · refine ⟨by omega, le_rfl, by omega, by omega, hl s le_rfl (by omega),
      hl _ (by omega) (by omega), fun i hi hie => ?_, .inl rfl⟩
    obtain rfl : i = e := by omega
    exact le_rfl
  · have hne : newStart - 1 ≠ s := by
      intro hs
      rw [hs] at heq
      omega
    refine ⟨hst, hen, by omega, by omega, hf, ?_, fun i hi hie => ?_,
      .inr ⟨by omega, hb he, hle⟩⟩
    · rw [← heq]
      exact ha _ _ (by omega) (by omega) (by omega)
    · rw [← heq]
      exact ha.le (by omega) (by omega) hie
  · refine ⟨hst, hen, by omega, by omega, hf, ?_, fun i hi hie => ?_,
      .inr ⟨by omega, hb he, hle⟩⟩
    · exact lt_of_le_of_ne (hle _ (by omega) (by omega)) heq
    · exact le_trans (le_of_lt (hb he)) (ha.le (by omega) (by omega) hie)

theorem chooseBorder_candidate (ha : Ascending (boundary ranges) s e) (hse : s < e) :
    Candidate ranges s e (chooseBorder ranges s e).1 (chooseBorder ranges s e).2 := by
  rw [chooseBorder]
  split_ifs with hc
  · exact candidate_scanForward ha (by omega) (by omega) (lt_pageStart _)
  · exact candidate_scanForward ha le_rfl hse (lt_pageStart _)

end Arrays

section Branches

variable {uninitialized : ℕ → Bool} {ranges' : List ℕ} {min max fuel : ℕ} {fall next next' : Label}

/-- The boundaries that a search is about: they ascend, above `min` and up to `max`. -/
structure SearchSpace (ranges : List ℕ) (s e min max : ℕ) : Prop where
  start_le : s ≤ e
  lt_length : e < ranges.length
  ascending : Ascending (boundary ranges) s e
  min_lt : min < boundary ranges s
  le_max : boundary ranges e ≤ max
  max_lt : max < 2 ^ 16

theorem SearchSpace.lt (h : SearchSpace ranges s e min max) {i : ℕ} (hi : s ≤ i) (hie : i ≤ e) :
    min < boundary ranges i ∧ boundary ranges i ≤ max :=
  ⟨Nat.lt_of_lt_of_le h.min_lt (h.ascending.le (Nat.le_refl s) hi hie),
    le_trans (h.ascending.le hi hie le_rfl) h.le_max⟩

def regionLabel (even odd : Label) (k : ℕ) : Label := if k % 2 = 1 then even else odd

/-- The code decides which region a character between `min` and `max` is in.  It binds new labels
only, and other boundaries are left as they are. -/
structure Decides (ranges : List ℕ) (s e min max : ℕ) (fall even odd next : Label)
    (code : List Instr) (ranges' : List ℕ) (next' : Label) : Prop where
  next_le : next ≤ next'
  length_eq : ranges'.length = ranges.length
  frame : ∀ i, i < s ∨ e < i → boundary ranges' i = boundary ranges i
  binds : ∀ i ∈ code, ∀ l, i.binds = some l → next ≤ l
  reaches : ∀ c k, min ≤ c → c ≤ max → Region (boundary ranges) s e c k →
    Reaches c code fall (regionLabel even odd k)

theorem Decides.of_reaches (hb : ∀ i ∈ code, i.binds = none)
    (hrc : ∀ c k, min ≤ c → c ≤ max → Region (boundary ranges) s e c k →
      Reaches c code fall (regionLabel even odd k)) :
    Decides ranges s e min max fall even odd next code ranges next where
  next_le := le_rfl
  length_eq := rfl
  frame _ _ := rfl
  binds i hi l hl := by
    rw [hb i hi] at hl
    cases hl
  reaches := hrc

theorem emitBoundaryTest_binds {border : ℕ} {above below : Label} :
    ∀ i ∈ emitBoundaryTest border fall above below, i.binds = none := by
  intro i hi
  rw [emitBoundaryTest] at hi
  split_ifs at hi <;> simp at hi
  · rcases hi with rfl | rfl <;> rfl
  · rw [hi]; rfl
  · rw [hi]; rfl

theorem emitDoubleBoundaryTest_binds {first last : ℕ} {inRange outOfRange : Label} :
    ∀ i ∈ emitDoubleBoundaryTest first last fall inRange outOfRange, i.binds = none := by
  intro i hi
  rw [emitDoubleBoundaryTest] at hi
  split_ifs at hi <;> simp at hi
  all_goals rcases hi with rfl | rfl <;> rfl

theorem emitUseLookupTable_binds :
    ∀ i ∈ emitUseLookupTable uninitialized ranges s e fall even odd, i.binds = none := by
  intro i hi
  rw [emitUseLookupTable] at hi
  rcases mem_cons.mp hi with rfl | hi
  · rfl
  · split_ifs at hi with h1 h2 h2
    all_goals first | rw [mem_singleton.mp hi]; rfl | cases hi

theorem regionLabel_succ (k : ℕ) : regionLabel even odd (k + 1) = regionLabel odd even k := by
  rw [regionLabel, regionLabel]
  rcases Nat.mod_two_eq_zero_or_one k with h | h
  · rw [if_pos (by omega), if_neg (by omega)]
  · rw [if_neg (by omega), if_pos h]

theorem regionLabel_lt (he : even < next) (ho : odd < next) (k : ℕ) :
    regionLabel even odd k < next := by
  rw [regionLabel]
  split_ifs
  · exact he
  · exact ho

theorem decides_boundaryTest (h : SearchSpace ranges s s min max) :
    Decides ranges s s min max fall even odd next
      (emitBoundaryTest (boundary ranges s) fall even odd) ranges next := by
  refine .of_reaches emitBoundaryTest_binds fun c k _ _ hk => ?_
  have hs := h.lt le_rfl le_rfl
  have hm := h.max_lt
  have hle := hk.le
  have hlt := hk.lt_iff le_rfl le_rfl
  have ha (hc : boundary ranges s ≤ c) : k = 1 := by omega
  have hbl (hc : c < boundary ranges s) : k = 0 := by omega
  rw [emitBoundaryTest, uint16_of_lt (by omega), uint16_of_lt (by omega)]
  by_cases hb : odd = fall
  · rw [if_neg (not_not.mpr hb), ← hb]
    exact reaches_single rfl (fun hc => ha (by omega) ▸ rfl) fun hc => hbl (by omega) ▸ rfl
  · rw [if_pos hb]
    exact reaches_test rfl (fun hc => hbl hc ▸ rfl) fun hc => ha (by omega) ▸ rfl

theorem decides_doubleBoundaryTest (h : SearchSpace ranges s (s + 1) min max) :
    Decides ranges s (s + 1) min max fall even odd next
      (emitDoubleBoundaryTest (boundary ranges s) (boundary ranges (s + 1) - 1) fall even odd)
      ranges next := by
  refine .of_reaches emitDoubleBoundaryTest_binds fun c k _ _ hk => ?_
  have hlt := h.ascending s (s + 1) le_rfl (Nat.lt_succ_self s) le_rfl
  have hs := h.lt (Nat.le_add_right s 1) le_rfl
  have hm := h.max_lt
  have hle := hk.le
  have hf := hk.lt_iff le_rfl (Nat.le_add_right s 1)
  have hsc := hk.lt_iff (Nat.le_add_right s 1) le_rfl
  refine emitDoubleBoundaryTest_reaches (by omega) (by omega) (fun h1 h2 => ?_) fun hc => ?_
  · rw [regionLabel, if_pos (by omega)]
  · rw [regionLabel, if_neg (by omega)]

theorem decides_lookupTable (h : SearchSpace ranges s e min max) (hse : s < e)
    (hp : max / kTableSize = min / kTableSize) :
    Decides ranges s e min max fall even odd next
      (emitUseLookupTable uninitialized ranges s e fall even odd) ranges next := by
  refine .of_reaches emitUseLookupTable_binds fun c k hm hmx hk => ?_
  have hd {x : ℕ} (h1 : min ≤ x) (h2 : x ≤ max) : x / kTableSize = min / kTableSize :=
    le_antisymm (hp ▸ Nat.div_le_div_right h2) (Nat.div_le_div_right h1)
  refine emitUseLookupTable_reaches h.ascending hse (fun i hi hie => ?_) hk rfl
  have hlt := h.lt hi hie
  exact (hd (Nat.le_of_lt hlt.1) hlt.2).trans (hd hm hmx).symm

theorem execute_cons {i : Instr} : execute c (i :: code) =
    run (Instr.branch c) Instr.binds (i.branch c) code := rfl

theorem execute_append {code' : List Instr} : execute c (code ++ code') =
    run (Instr.branch c) Instr.binds (execute c code) code' := run_append

theorem run_of_binds {l : Label} (hbn : ∀ i ∈ code, ∀ l, i.binds = some l → next ≤ l)
    (hl : l < next) : run (Instr.branch c) Instr.binds (some l) code = some l :=
  run_skip fun i hi hb => Nat.not_le_of_lt hl (hbn i hi l hb)

section Cut

variable {cut : ℕ} (hct : s ≤ cut) (hct' : cut < e)

include hct hct'

theorem boundary_cutOutRange (hl : e < ranges.length) (i : ℕ) :
    boundary (cutOutRange ranges s e cut even odd next).2 i =
      if s < i ∧ i ≤ cut then boundary ranges (i - 1)
      else if cut < i ∧ i < e then boundary ranges (i + 1) else boundary ranges i := by
  have hl' : cut + 1 + (e - (cut + 1)) ≤ (moveUp s cut ranges).length := by
    rw [length_moveUp]
    omega
  rw [cutOutRange, boundary_moveDown hl', boundary_moveUp (by omega), boundary_moveUp (by omega)]
  by_cases h1 : s < i ∧ i ≤ cut
  · rw [if_neg (by omega), if_pos h1, if_pos h1]
  · by_cases h2 : cut < i ∧ i < e
    · rw [if_pos (by omega), if_neg (by omega), if_neg h1, if_pos h2]
    · rw [if_neg (by omega), if_neg h1, if_neg h1, if_neg h2]

theorem SearchSpace.cutOutRange (h : SearchSpace ranges s e min max) (hse : s + 2 ≤ e) :
    SearchSpace (Regexp.cutOutRange ranges s e cut even odd next).2 (s + 1) (e - 1) min max := by
  -- every place has the boundary of a place between `s` and `e`, in order
  have hp (i : ℕ) (hi : s + 1 ≤ i) (hie : i ≤ e - 1) :
      boundary (Regexp.cutOutRange ranges s e cut even odd next).2 i =
        boundary ranges (if i ≤ cut then i - 1 else i + 1) := by
    rw [boundary_cutOutRange hct hct' h.lt_length]
    by_cases him : i ≤ cut
    · rw [if_pos (by omega), if_pos him]
    · rw [if_neg (by omega), if_pos (by omega), if_neg him]
  refine ⟨by omega, ?_, fun i j hi hij hj => ?_, ?_, ?_, h.max_lt⟩
  · rw [Regexp.cutOutRange, length_moveDown, length_moveUp]
    have := h.lt_length
    omega
  · rw [hp i hi (by omega), hp j (by omega) hj]
    refine h.ascending _ _ ?_ ?_ ?_ <;> split_ifs <;> omega
  · rw [hp _ le_rfl (by omega)]
    exact (h.lt (by split_ifs <;> omega) (by split_ifs <;> omega)).1
  · rw [hp _ (by omega) le_rfl]
    exact (h.lt (by split_ifs <;> omega) (by split_ifs <;> omega)).2

theorem execute_cutOutRange (h : SearchSpace ranges s e min max) (he : even < next)
    (ho : odd < next) :
    execute c (cutOutRange ranges s e cut even odd next).1 =
      if boundary ranges cut ≤ c ∧ c < boundary ranges (cut + 1) then
        some (regionLabel even odd (cut + 1 - s)) else none := by
  have hlt := h.ascending cut (cut + 1) hct (Nat.lt_succ_self cut) hct'
  have hm := (h.lt (show s ≤ cut + 1 by omega) hct').2
  have hm' := h.max_lt
  have hl : (if (cut - s) % 2 = 1 then odd else even) = regionLabel even odd (cut + 1 - s) := by
    rw [show cut + 1 - s = cut - s + 1 by omega, regionLabel_succ]
    rfl
  have hne := Nat.ne_of_lt (regionLabel_lt he ho (cut + 1 - s))
  rw [cutOutRange, hl]
  generalize regionLabel even odd (cut + 1 - s) = label at hne
  show execute c (emitDoubleBoundaryTest (boundary ranges cut) (boundary ranges (cut + 1) - 1)
    next label next) = _
  rw [emitDoubleBoundaryTest, if_neg hne, if_neg (not_not.mpr rfl), uint16_of_lt (by omega),
    uint16_of_lt (by omega)]
  by_cases heq : boundary ranges cut = boundary ranges (cut + 1) - 1
  · rw [if_pos heq]
    refine if_congr ?_ rfl rfl
    omega
  · rw [if_neg heq]
    refine if_congr ?_ rfl rfl
    omega

theorem Decides.cutOutRange (h : SearchSpace ranges s e min max)
    (he : even < next) (ho : odd < next)
    (hr : Decides (Regexp.cutOutRange ranges s e cut even odd next).2 (s + 1) (e - 1) min max
      fall even odd (next + 1) code ranges' next') :
    Decides ranges s e min max fall even odd next
      ((Regexp.cutOutRange ranges s e cut even odd next).1 ++ code) ranges' next' where
  next_le := Nat.le_of_succ_le hr.next_le
  length_eq := by
    rw [hr.length_eq, Regexp.cutOutRange, length_moveDown, length_moveUp]
  frame i hi := by
    rw [hr.frame i (by omega), boundary_cutOutRange hct hct' h.lt_length, if_neg (by omega),
      if_neg (by omega)]
  binds i hi l hl := by
    rcases mem_append.mp hi with hi | hi
    · rw [emitDoubleBoundaryTest_binds i hi] at hl
      cases hl
    · exact Nat.le_of_succ_le (hr.binds i hi l hl)
  reaches c k hmin hmax hk := by
    have hlw := hk.lt_iff hct (Nat.le_of_lt hct')
    have hh := hk.lt_iff (show s ≤ cut + 1 by omega) hct'
    rw [Reaches, execute_append, execute_cutOutRange hct hct' h he ho]
    by_cases hc : boundary ranges cut ≤ c ∧ c < boundary ranges (cut + 1)
    · -- in the range that is cut out
      have hk1 : k = cut + 1 - s := by omega
      rw [if_pos hc, ← hk1]
      exact .inl (run_of_binds hr.binds (Nat.lt_succ_of_lt (regionLabel_lt he ho k)))
    have hk1 : k ≠ cut + 1 - s := by omega
    obtain ⟨k', hpar, hk'⟩ : ∃ k', k' % 2 = k % 2 ∧ Region (boundary
        (Regexp.cutOutRange ranges s e cut even odd next).2) (s + 1) (e - 1) c k' :=
      hk.cut hct hct'
      (fun i hi him => by
        rw [boundary_cutOutRange hct hct' h.lt_length, if_pos ⟨hi, him⟩])
      (fun i hi hie => by
        rw [boundary_cutOutRange hct hct' h.lt_length, if_neg (by omega), if_pos ⟨hi, hie⟩])
      hk1
    rw [if_neg hc]
    have hrc := hr.reaches c k' hmin hmax hk'
    rwa [regionLabel, hpar] at hrc

end Cut

theorem Decides.page (h : SearchSpace ranges s e min max) (ho : odd < next)
    (hr : Decides ranges (s + 1) e (boundary ranges s) max fall odd even next code ranges' next') :
    Decides ranges s e min max fall even odd next
      (.checkCharacterLT (boundary ranges s) odd :: code) ranges' next' where
  next_le := hr.next_le
  length_eq := hr.length_eq
  frame i hi := hr.frame i (by omega)
  binds i hi l hl := by
    rcases mem_cons.mp hi with rfl | hi
    · cases hl
    · exact hr.binds i hi l hl
  reaches c k hmin hmax hk := by
    have hlt := hk.lt_iff le_rfl h.start_le
    rw [Reaches, execute_cons, Instr.branch]
    by_cases hc : c < boundary ranges s
    · obtain rfl : k = 0 := by omega
      rw [if_pos hc]
      exact .inl (run_of_binds hr.binds ho)
    · obtain ⟨k', rfl⟩ : ∃ k', k = k' + 1 := Nat.exists_eq_succ_of_ne_zero (by omega)
      rw [if_neg hc, regionLabel_succ]
      exact hr.reaches c k' (le_of_not_gt hc) hmax hk.tail

theorem Decides.execute (h : Decides ranges s e min max fall even odd next code ranges' next')
    (he : even < fall) (ho : odd < fall) (hm : min ≤ c) (hmx : c ≤ max)
    (hk : Region (boundary ranges) s e c k) :
    Regexp.execute c code = some (regionLabel even odd k) := by
  rcases h.reaches c k hm hmx hk with hrn | ⟨-, hfall⟩
  · exact hrn
  · exact absurd hfall (Nat.ne_of_lt (regionLabel_lt he ho k))

section Split

variable {newStart newEnd next₁ : ℕ} {low high : List Instr} {ranges₁ : List ℕ}
  (hsp : Split ranges s e newStart newEnd border)

include hsp

theorem Split.region_low (hk : Region (boundary ranges) s e c k) (hc : c < border) :
    Region (boundary ranges) s newEnd c k := by
  have hs := hsp.start_le
  refine hk.restrict (Nat.le_of_lt hsp.lt_end) (by omega) fun i hi hie => ?_
  exact Nat.lt_of_lt_of_le hc (hsp.high i hi hie)

theorem Decides.splitLast (hb : border = boundary ranges e) (he : even < next)
    (ho : odd < next)
    (hlw : Decides ranges s newEnd min (border - 1) (next + 1) even odd (next + 2) code ranges'
      next') :
    Decides ranges s e min max fall even odd next
      (.checkCharacterGT (border - 1) (regionLabel even odd (e + 1 - s)) :: code) ranges'
      next' where
  next_le := le_trans (Nat.le_add_right next 2) hlw.next_le
  length_eq := hlw.length_eq
  frame i hi := hlw.frame i (by have := hsp.lt_end; omega)
  binds i hi l hl := by
    rcases mem_cons.mp hi with rfl | hi
    · cases hl
    · exact le_trans (Nat.le_add_right next 2) (hlw.binds i hi l hl)
  reaches c k hmin hmax hk := by
    have hp := hsp.first_lt
    have hle := hk.le
    have hen := hsp.lt_end
    have hls := hk.lt_iff (Nat.le_trans hsp.start_le (Nat.le_of_lt hen)) (Nat.le_refl e)
    refine .inl ?_
    rw [execute_cons, Instr.branch]
    by_cases hc : border ≤ c
    · obtain rfl : k = e + 1 - s := by omega
      rw [if_pos (by omega)]
      exact run_of_binds hlw.binds (Nat.lt_add_right 2 (regionLabel_lt he ho _))
    · rw [if_neg (by omega)]
      exact hlw.execute (Nat.lt_succ_of_lt he) (Nat.lt_succ_of_lt ho) hmin (by omega)
        (hsp.region_low hk (by omega))

section Rest

variable (hr : border < boundary ranges newStart ∧
  ∀ i, s ≤ i → i < newStart → boundary ranges i ≤ border)

include hr

theorem Split.end_lt_start (h : SearchSpace ranges s e min max) : newEnd < newStart := by
  by_contra hle
  have hl := hsp.low
  have hs := hsp.start_lt
  have he := hsp.lt_end
  have := h.ascending.le (show s ≤ newStart by omega) (le_of_not_gt hle) (by omega)
  omega

theorem Decides.split (h : SearchSpace ranges s e min max) (he : even < next) (ho : odd < next)
    (hlw : Decides ranges s newEnd min (border - 1) (next + 1) even odd (next + 2) low ranges₁
      next₁)
    (hh : Decides ranges₁ newStart e border max (next + 1)
      (if newStart % 2 ≠ s % 2 then odd else even) (if newStart % 2 ≠ s % 2 then even else odd)
      next₁ high ranges' next') :
    Decides ranges s e min max fall even odd next
      (.checkCharacterGT (border - 1) next :: low ++ .bindBlock next :: high) ranges' next' where
  next_le := Nat.le_trans (Nat.le_add_right next 2) (Nat.le_trans hlw.next_le hh.next_le)
  length_eq := by rw [hh.length_eq, hlw.length_eq]
  frame i hi := by
    have hs := hsp.start_lt
    have hen := hsp.lt_end
    rw [hh.frame i (by omega), hlw.frame i (by omega)]
  binds i hi l hl := by
    have hle : next ≤ next + 2 := Nat.le_add_right next 2
    rcases mem_append.mp hi with hi | hi
    · rcases mem_cons.mp hi with rfl | hi
      · cases hl
      · exact Nat.le_trans hle (hlw.binds i hi l hl)
    · rcases mem_cons.mp hi with rfl | hi
      · cases hl
        exact le_rfl
      · exact Nat.le_trans hle (Nat.le_trans hlw.next_le (hh.binds i hi l hl))
  reaches c k hmin hmax hk := by
    have hp := hsp.first_lt
    have hs := hsp.start_lt
    have hen := hsp.le_end
    refine .inl ?_
    rw [execute_append, execute_cons, run_cons, Instr.branch]
    by_cases hc : border ≤ c
    · obtain ⟨k', rfl, hk'⟩ := hk.drop (Nat.le_of_lt hs) (by omega)
        fun i hi hlt => le_trans (hr.2 i hi hlt) hc
      have hb : step (Instr.branch c) Instr.binds (some next) (.bindBlock next) = none :=
        if_pos rfl
      rw [if_pos (by omega), run_of_binds hlw.binds (Nat.lt_add_of_pos_right (by decide)), hb]
      have hlt := hsp.end_lt_start hr h
      have hk₁ : Region (boundary ranges₁) newStart e c k' :=
        hk'.congr fun i hi _ => hlw.frame i (.inr (by omega))
      have hrn := hh.execute (by split_ifs <;> exact Nat.lt_succ_of_lt ‹_›)
        (by split_ifs <;> exact Nat.lt_succ_of_lt ‹_›) hc hmax hk₁
      refine hrn.trans (congrArg some ?_)
      by_cases hflip : newStart % 2 ≠ s % 2
      · rw [if_pos hflip, if_pos hflip, ← regionLabel_succ]
        exact if_congr (by omega) rfl rfl
      · rw [if_neg hflip, if_neg hflip]
        exact if_congr (by omega) rfl rfl
    · have hrn : run (Instr.branch c) Instr.binds none low = some (regionLabel even odd k) :=
        hlw.execute (Nat.lt_succ_of_lt he) (Nat.lt_succ_of_lt ho) hmin (by omega)
          (hsp.region_low hk (by omega))
      have hlb := regionLabel_lt he ho k
      have hb : step (Instr.branch c) Instr.binds (some (regionLabel even odd k))
          (.bindBlock next) = some (regionLabel even odd k) :=
        if_neg fun heq => Nat.ne_of_gt hlb (some.inj heq)
      rw [if_neg (by omega), hrn, hb]
      refine run_of_binds hh.binds (Nat.lt_of_lt_of_le hlb ?_)
      exact Nat.le_trans (Nat.le_add_right next 2) hlw.next_le

end Rest

theorem Split.searchSpace_low (h : SearchSpace ranges s e min max) :
    SearchSpace ranges s newEnd min (border - 1) where
  start_le := hsp.start_le
  lt_length := Nat.lt_trans hsp.lt_end h.lt_length
  ascending := h.ascending.mono (Nat.le_refl s) (Nat.le_of_lt hsp.lt_end)
  min_lt := h.min_lt
  le_max := Nat.le_sub_one_of_lt hsp.low
  max_lt := by
    have he := hsp.lt_end
    have hl := (h.lt (Nat.le_trans hsp.start_le (Nat.le_of_lt he)) (Nat.le_refl e)).2
    have hb := hsp.high e he le_rfl
    have hm := h.max_lt
    omega

theorem Split.searchSpace_high (h : SearchSpace ranges s e min max)
    (hr : border < boundary ranges newStart) (hl : ranges₁.length = ranges.length)
    (hf : ∀ i, newStart ≤ i → boundary ranges₁ i = boundary ranges i) :
    SearchSpace ranges₁ newStart e border max where
  start_le := hsp.le_end
  lt_length := hl ▸ h.lt_length
  ascending := (h.ascending.mono (Nat.le_of_lt hsp.start_lt) (Nat.le_refl e)).congr
    fun i hi _ => hf i hi
  min_lt := by rwa [hf newStart le_rfl]
  le_max := by
    rw [hf e hsp.le_end]
    exact h.le_max
  max_lt := h.max_lt

end Split

theorem SearchSpace.tail (h : SearchSpace ranges s e min max) (hse : s < e) :
    SearchSpace ranges (s + 1) e (boundary ranges s) max where
  start_le := hse
  lt_length := h.lt_length
  ascending := h.ascending.mono (Nat.le_succ s) le_rfl
  min_lt := h.ascending s (s + 1) le_rfl (Nat.lt_succ_self s) hse
  le_max := h.le_max
  max_lt := h.max_lt

/-- The search ends, and its code decides which region a character is in. -/
theorem generateBranches_decides (uninitialized : ℕ → Bool) (fall : Label)
    (h : SearchSpace ranges s e min max) (hfl : e - s < fuel) (he : even < next) (ho : odd < next) :
    ∃ code ranges' next',
      generateBranches uninitialized fuel ranges s e min max fall even odd next =
        some (code, ranges', next') ∧
      Decides ranges s e min max fall even odd next code ranges' next' := by
  -- every recursive call has fewer boundaries
  induction fuel generalizing ranges s e min max fall even odd next with
  | zero => exact absurd hfl (Nat.not_lt_zero _)
  | succ fuel ih =>
    have hse := h.start_le
    unfold generateBranches
    by_cases h1 : s = e
    · subst h1
      exact ⟨_, _, _, if_pos rfl, decides_boundaryTest h⟩
    by_cases h2 : s + 1 = e
    · subst h2
      exact ⟨_, _, _, (if_neg h1).trans (if_pos rfl), decides_doubleBoundaryTest h⟩
    dsimp only
    rw [if_neg h1, if_neg h2]
    by_cases h3 : e - s ≤ 6
    · obtain ⟨hct, hct'⟩ : s ≤ findCut ranges s e ∧ findCut ranges s e < e :=
        findCut_mem (by omega)
      have hs : SearchSpace (cutOutRange ranges s e (findCut ranges s e) even odd next).2
          (s + 1) (e - 1) min max := h.cutOutRange hct hct' (by omega)
      obtain ⟨code, ranges', next', hg, hr⟩ := ih fall hs (by omega)
        (Nat.lt_succ_of_lt he) (Nat.lt_succ_of_lt ho)
      refine ⟨_, _, _, ?_, hr.cutOutRange hct hct' h he ho⟩
      rw [if_pos h3, hg]
      rfl
    rw [if_neg h3]
    by_cases h4 : max / kTableSize = min / kTableSize
    · exact ⟨_, _, _, if_pos h4, decides_lookupTable h (by omega) h4⟩
    rw [if_neg h4]
    have hf := h.lt le_rfl hse
    have hm := h.max_lt
    have hu : uint16 (ranges.getD s 0) = boundary ranges s :=
      uint16_of_lt (Nat.lt_of_le_of_lt hf.2 hm)
    by_cases h5 : min / kTableSize ≠ ranges.getD s 0 / kTableSize
    · obtain ⟨code, ranges', next', hg, hr⟩ :=
        ih fall (h.tail (by omega)) (by omega) ho he
      refine ⟨_, _, _, ?_, hr.page h ho⟩
      rw [if_pos h5, hu, hg]
      rfl
    rw [if_neg h5]
    have hsp := (chooseBorder_candidate h.ascending (show s < e by omega)).split
      (p := splitSearchSpace ranges s e) h.ascending rfl
    generalize hp : splitSearchSpace ranges s e = p at hsp
    obtain ⟨newStart, _, border⟩ := p
    dsimp only at hsp ⊢
    have hst := hsp.start_lt
    have hen := hsp.lt_end
    have hps := hsp.first_lt
    have hls := (h.lt hse le_rfl).2
    have hb := hsp.high e hen le_rfl
    have he₂ : even < next + 2 := Nat.lt_add_right 2 he
    have ho₂ : odd < next + 2 := Nat.lt_add_right 2 ho
    obtain ⟨_, _, next₁, hlg, hlw⟩ := ih (next + 1) (hsp.searchSpace_low h)
      (by omega) he₂ ho₂
    rw [uint16_of_lt (show border - 1 < 2 ^ 16 by omega),
      uint16_of_lt (show border < 2 ^ 16 by omega), hlg]
    have hsc : ranges.getD e 0 - 1 + 1 = boundary ranges e :=
      Nat.sub_add_cancel (le_trans (Nat.succ_le_of_lt (Nat.zero_lt_of_lt hps)) hb)
    rw [hsc]
    rcases hsp.rest with hl | ⟨hlt, hr⟩
    · -- everything above the border is one of the terminal labels
      have hlb : (if e % 2 ≠ s % 2 then odd else even) = regionLabel even odd (e + 1 - s) := by
        rw [show e + 1 - s = e - s + 1 by omega, regionLabel_succ]
        exact if_congr (by omega) rfl rfl
      refine ⟨_, _, _, ?_, hlw.splitLast hsp hl he ho⟩
      rw [if_pos hl, hlb]
      exact if_neg (Nat.ne_of_lt (regionLabel_lt he ho _))
    · have hn := le_trans (Nat.le_add_right next 2) hlw.next_le
      have hlt₁ := hsp.end_lt_start hr h
      have he₁ : (if newStart % 2 ≠ s % 2 then odd else even) < next₁ := by
        split_ifs <;> exact lt_of_lt_of_le ‹_› hn
      have ho₁ : (if newStart % 2 ≠ s % 2 then even else odd) < next₁ := by
        split_ifs <;> exact lt_of_lt_of_le ‹_› hn
      obtain ⟨high, _, _, hh, hhg⟩ := ih (next + 1)
        (hsp.searchSpace_high h hr.1 hlw.length_eq fun i hi =>
          hlw.frame i (.inr (by omega))) (by omega) he₁ ho₁
      refine ⟨_, _, _, ?_, hlw.split hsp hr h he ho hhg⟩
      rw [if_neg (Nat.ne_of_lt hlt)]
      refine (if_pos rfl).trans ?_
      simp only [hh]
      rfl

end Branches

end DartSdk.Vm.Regexp
