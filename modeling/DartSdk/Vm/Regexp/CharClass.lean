import DartSdk.Vm.Regexp.Branches
import Mathlib.Data.List.DropRight

/-!
# Code for character classes

`EmitCharClass` turns the ranges of a class into boundaries and emits code for them.  The character
is loaded, and the ranges are canonical.

* `region_countP`: a number is in the region that counts the boundaries up to it;
* `countP_edges`: in a class, that count is odd;
* `emitCharClass_exact`: **the code is left at its end for the characters of the class, and it goes
  to the label for failure for the others.**
-/

namespace DartSdk.Vm.Regexp

open Boundaries ForwardCode List Option

section Model

structure CharacterRange where
  fromUnit : ℕ
  toUnit : ℕ
  valid : fromUnit ≤ toUnit
  lt : toUnit < 2 ^ 16
  deriving DecidableEq

def CharacterRange.contains (range : CharacterRange) (i : ℕ) : Bool :=
  decide (range.fromUnit ≤ i ∧ i ≤ range.toUnit)

def CharacterRange.isEverything (range : CharacterRange) (max : ℕ) : Bool :=
  decide (range.fromUnit = 0 ∧ max ≤ range.toUnit)

/-- Increasing, non-overlapping and non-adjacent. -/
def CharacterRange.isCanonical : List CharacterRange → Bool
  | [] => true
  | [_] => true
  | range :: nextRange :: ranges =>
    decide (range.toUnit + 1 < nextRange.fromUnit) && isCanonical (nextRange :: ranges)

def maxChar (oneByte : Bool) : ℕ := if oneByte then kMaxOneCharCodeSymbol else kMaxCodeUnit

/-- The ranges up to `last_valid_range`. -/
def validRanges (max : ℕ) (ranges : List CharacterRange) : List CharacterRange :=
  ranges.rdropWhile fun range => max < range.fromUnit

/-- One round of the loop that makes `range_boundaries`, with `zeroth_entry_is_failure`. -/
def addBoundaries (acc : Bool × List ℕ) (range : CharacterRange) : Bool × List ℕ :=
  if range.fromUnit = 0 then (!acc.1, acc.2 ++ [range.toUnit + 1])
  else (acc.1, acc.2 ++ [range.fromUnit, range.toUnit + 1])

/-- The last boundary that is not above the maximal character. -/
def endIndex (max : ℕ) (boundaries : List ℕ) : ℕ :=
  let endIndex := boundaries.length - 1
  if max < boundaries.getD endIndex 0 then endIndex - 1 else endIndex

/-- `EmitCharClass`, for a character that is loaded.  Labels from `next` on are unused. -/
def emitCharClass (uninitialized : ℕ → Bool) (ranges : List CharacterRange)
    (isNegated oneByte : Bool) (onFailure next : Label) : Option (List Instr) :=
  let max := maxChar oneByte
  let valid := validRanges max ranges
  if valid.isEmpty then some (if isNegated then [] else [.goTo onFailure])
  else if valid.length = 1 ∧ valid.any (·.isEverything max) then
    some (if isNegated then [.goTo onFailure] else [])
  else do
    let (zerothEntryIsFailure, boundaries) := valid.foldl addBoundaries (!isNegated, [])
    let fallThrough := next
    let (code, _, _) ← generateBranches uninitialized boundaries.length boundaries 0
      (endIndex max boundaries) 0 max fallThrough
      (if zerothEntryIsFailure then fallThrough else onFailure)
      (if zerothEntryIsFailure then onFailure else fallThrough) (next + 1)
    return code ++ [.bindBlock fallThrough]

end Model

open CharacterRange

variable {l : List ℕ} {c e : ℕ} {ranges : List CharacterRange} {r : CharacterRange}

section Edges

theorem boundary_le_of_countP (hl : l.Pairwise (· < ·)) (i : ℕ) :
    (i < l.countP (· ≤ c) → boundary l i ≤ c) ∧
      (l.countP (· ≤ c) ≤ i → i < l.length → c < boundary l i) := by
  induction l generalizing i with
  | nil => exact ⟨fun h => absurd h (Nat.not_lt_zero i), fun _ h => absurd h (Nat.not_lt_zero i)⟩
  | cons a l ih =>
    obtain ⟨ha, hl⟩ := pairwise_cons.mp hl
    by_cases hac : a ≤ c
    · rw [countP_cons_of_pos (by simpa using hac)]
      cases i with
      | zero => exact ⟨fun _ => hac, fun h => by omega⟩
      | succ i =>
        refine ⟨fun h => (ih hl i).1 (by omega), fun h hi => (ih hl i).2 (by omega) ?_⟩
        exact Nat.lt_of_succ_lt_succ hi
    have hz : (a :: l).countP (· ≤ c) = 0 := by
      rw [countP_eq_zero]
      intro b hb
      rcases mem_cons.mp hb with rfl | hb
      · simpa using hac
      · have := ha b hb
        simp
        omega
    rw [hz]
    refine ⟨fun h => absurd h (Nat.not_lt_zero i), fun _ hi => ?_⟩
    cases i with
    | zero => exact Nat.lt_of_not_le hac
    | succ i =>
      have hm := ha _ (getElem_mem (Nat.lt_of_succ_lt_succ hi))
      show c < l.getD i 0
      rw [getD_eq_getElem _ _ (Nat.lt_of_succ_lt_succ hi)]
      omega

theorem region_countP (hl : l.Pairwise (· < ·)) (he : e < l.length)
    (hc : ∀ i, e < i → i < l.length → c < boundary l i) :
    Region (boundary l) 0 e c (l.countP (· ≤ c)) where
  le := by
    by_contra hlt
    have hcn := countP_le_length (p := (· ≤ c)) (l := l)
    have hle : boundary l (e + 1) ≤ c := (boundary_le_of_countP hl (e + 1)).1 (by omega)
    have hgt := hc (e + 1) (Nat.lt_succ_self e) (by omega)
    omega
  below i _ hi := (boundary_le_of_countP hl i).1 (by omega)
  above i hi hie := (boundary_le_of_countP hl i).2 (by omega) (by omega)

theorem ascending_of_pairwise (hl : l.Pairwise (· < ·)) (he : e < l.length) :
    Ascending (boundary l) 0 e := by
  intro i j _ hij hj
  have hg := pairwise_iff_getElem.mp hl i j (by omega) (by omega) hij
  rwa [boundary, boundary, getD_eq_getElem _ _ (by omega), getD_eq_getElem _ _ (by omega)]

def edges (ranges : List CharacterRange) : List ℕ :=
  ranges.flatMap fun range => [range.fromUnit, range.toUnit + 1]

/-- Every range is apart from those after it. -/
def Apart (ranges : List CharacterRange) : Prop :=
  ranges.Pairwise fun range range' => range.toUnit + 1 < range'.fromUnit

theorem apart_of_isCanonical (h : isCanonical ranges) : Apart ranges := by
  induction ranges with
  | nil => exact List.Pairwise.nil
  | cons _ ranges ih =>
    cases ranges with
    | nil => exact pairwise_singleton _ _
    | cons nextRange ranges =>
      rw [isCanonical, Bool.and_eq_true, decide_eq_true_iff] at h
      have hr := ih h.2
      refine pairwise_cons.mpr ⟨fun range' hm => ?_, hr⟩
      rcases mem_cons.mp hm with rfl | hm
      · exact h.1
      · have hn := (pairwise_cons.mp hr).1 range' hm
        have hv := nextRange.valid
        omega

theorem edges_cons : edges (r :: ranges) = r.fromUnit :: (r.toUnit + 1) :: edges ranges := rfl

theorem mem_edges {x : ℕ} (h : x ∈ edges ranges) : ∃ r ∈ ranges, r.fromUnit ≤ x := by
  obtain ⟨r, hr, hx⟩ := mem_flatMap.mp h
  have hv := r.valid
  simp at hx
  exact ⟨r, hr, by omega⟩

theorem edges_pairwise (h : Apart ranges) : (edges ranges).Pairwise (· < ·) := by
  induction ranges with
  | nil => exact List.Pairwise.nil
  | cons r ranges ih =>
    obtain ⟨hr, hrs⟩ := pairwise_cons.mp h
    have ha (x : ℕ) (hx : x ∈ edges ranges) : r.toUnit + 1 < x := by
      obtain ⟨r', hr', hle⟩ := mem_edges hx
      exact (hr r' hr').trans_le hle
    rw [edges_cons]
    refine .cons (fun x hx => ?_) (.cons ha (ih hrs))
    have hv := r.valid
    rcases mem_cons.mp hx with rfl | hx
    · omega
    · have := ha x hx
      omega

theorem countP_edges (h : Apart ranges) :
    (edges ranges).countP (· ≤ c) % 2 = 1 ↔ ranges.any (·.contains c) := by
  induction ranges with
  | nil => simp [edges]
  | cons r ranges ih =>
    obtain ⟨hr, hrs⟩ := pairwise_cons.mp h
    have hv := r.valid
    have ih := ih hrs
    rw [edges_cons, any_cons, CharacterRange.contains]
    by_cases hfrom : r.fromUnit ≤ c
    · by_cases hto : c ≤ r.toUnit
      · -- the other ranges are further up
        have hz : (edges ranges).countP (· ≤ c) = 0 := by
          rw [countP_eq_zero]
          intro x hx
          obtain ⟨r', hr', hle⟩ := mem_edges hx
          have := hr r' hr'
          simp
          omega
        rw [countP_cons_of_pos (by simpa using hfrom), countP_cons_of_neg (by simp; omega), hz]
        simp [hfrom, hto]
      · rw [countP_cons_of_pos (by simpa using hfrom),
          countP_cons_of_pos (by simp; omega), Nat.add_assoc, Nat.add_mod_right, ih]
        simp [hto]
    · rw [countP_cons_of_neg (by simpa using hfrom),
        countP_cons_of_neg (by simp; omega), ih]
      simp [hfrom]

end Edges

section Emit

variable {uninitialized : ℕ → Bool} {init : List CharacterRange} {isNegated oneByte zeroth : Bool}
  {onFailure next : Label} {max : ℕ}

theorem any_validRanges (hc : c ≤ max) :
    (validRanges max ranges).any (·.contains c) = ranges.any (·.contains c) := by
  have ha : validRanges max ranges ++
      (ranges.rtakeWhile fun r => decide (max < r.fromUnit)) = ranges :=
    rdropWhile_append_rtakeWhile
  have hn : (ranges.rtakeWhile fun r => decide (max < r.fromUnit)).any (·.contains c) =
      false := by
    rw [List.any_eq_false]
    intro r hr
    have hlt := of_decide_eq_true
      (mem_rtakeWhile_imp (p := fun r : CharacterRange => decide (max < r.fromUnit)) hr)
    simp [CharacterRange.contains]
    omega
  conv_rhs => rw [← ha, any_append, hn, Bool.or_false]

theorem from_le_of_validRanges (h : validRanges max ranges = init ++ [r]) : r.fromUnit ≤ max := by
  have hne : validRanges max ranges ≠ [] := by simp [h]
  have hl := rdropWhile_last_not (fun r : CharacterRange => decide (max < r.fromUnit)) ranges hne
  have heq : (validRanges max ranges).getLast hne = r := by simp [h]
  rw [show (ranges.rdropWhile _).getLast _ = r from heq] at hl
  simpa using hl

theorem foldl_addBoundaries (h : ∀ r ∈ ranges, r.fromUnit ≠ 0) :
    ranges.foldl addBoundaries (zeroth, l) = (zeroth, l ++ edges ranges) := by
  induction ranges generalizing l with
  | nil => simp [edges]
  | cons r ranges ih =>
    rw [foldl_cons, addBoundaries, if_neg (h r mem_cons_self),
      ih fun r' hr' => h r' (mem_cons_of_mem r hr'), edges_cons]
    simp

theorem foldl_addBoundaries_of_apart (h : Apart (r :: ranges)) :
    (r :: ranges).foldl addBoundaries (zeroth, []) =
      if r.fromUnit = 0 then (!zeroth, (r.toUnit + 1) :: edges ranges)
      else (zeroth, edges (r :: ranges)) := by
  have hne (r' : CharacterRange) (hr' : r' ∈ ranges) : r'.fromUnit ≠ 0 := by
    have := (pairwise_cons.mp h).1 r' hr'
    omega
  rw [foldl_cons, addBoundaries]
  by_cases hfrom : r.fromUnit = 0
  · rw [if_pos hfrom, if_pos hfrom, foldl_addBoundaries hne]
    rfl
  · rw [if_neg hfrom, if_neg hfrom, foldl_addBoundaries hne]
    rfl

/-- Boundaries of which at most the last is above the maximal character. -/
structure Bounded (max : ℕ) (l : List ℕ) : Prop where
  pairwise : l.Pairwise (· < ·)
  pos : ∀ x ∈ l, 0 < x
  ends : (∃ x, l = [x] ∧ x ≤ max) ∨ ∃ l' x y, l = l' ++ [x, y] ∧ x ≤ max

theorem Bounded.endIndex (h : Bounded max l) :
    endIndex max l < l.length ∧ boundary l (endIndex max l) ≤ max ∧
      ∀ i, endIndex max l < i → i < l.length → max < boundary l i := by
  rw [Regexp.endIndex]
  rcases h.ends with ⟨x, rfl, hx⟩ | ⟨l', x, y, rfl, hx⟩
  · have he : (if max < [x].getD ([x].length - 1) 0 then [x].length - 1 - 1
        else [x].length - 1) = 0 := if_neg (Nat.not_lt_of_le hx)
    rw [he]
    refine ⟨Nat.lt_succ_self 0, hx, fun i hi hlt => ?_⟩
    have : i < 1 := hlt
    omega
  have hl : (l' ++ [x, y]).length = l'.length + 2 := by simp
  have hgt : boundary (l' ++ [x, y]) l'.length = x := by
    rw [boundary]
    simp
  have hg : boundary (l' ++ [x, y]) (l'.length + 1) = y := by
    rw [boundary]
    simp
  rw [hl, show l'.length + 2 - 1 = l'.length + 1 by omega,
    show (l' ++ [x, y]).getD (l'.length + 1) 0 = y from hg]
  by_cases hy : max < y
  · rw [if_pos hy, Nat.add_sub_cancel, hgt]
    refine ⟨by omega, hx, fun i hi hlt => ?_⟩
    obtain rfl : i = l'.length + 1 := by omega
    rwa [hg]
  · rw [if_neg hy, hg]
    exact ⟨by omega, Nat.le_of_not_lt hy, fun i hi hlt => by omega⟩

theorem Bounded.searchSpace (h : Bounded max l) (hm : max < 2 ^ 16) :
    SearchSpace l 0 (Regexp.endIndex max l) 0 max where
  start_le := Nat.zero_le _
  lt_length := h.endIndex.1
  ascending := ascending_of_pairwise h.pairwise h.endIndex.1
  min_lt := by
    have hl := Nat.zero_lt_of_lt h.endIndex.1
    rw [boundary, getD_eq_getElem _ _ hl]
    exact h.pos _ (getElem_mem hl)
  le_max := h.endIndex.2.1
  max_lt := hm

theorem bounded_boundaries (h : Apart (r :: ranges))
    (hl : ∀ init r', r :: ranges = init ++ [r'] → r'.fromUnit ≤ max)
    (hev : ¬((r :: ranges).length = 1 ∧ (r :: ranges).any (·.isEverything max))) :
    Bounded max ((r :: ranges).foldl addBoundaries (zeroth, [])).2 := by
  have hp := edges_pairwise h
  have ha := (pairwise_cons.mp hp).1
  rw [foldl_addBoundaries_of_apart h]
  rcases eq_nil_or_concat' ranges with rfl | ⟨init, r', rfl⟩
  · by_cases hfrom : r.fromUnit = 0
    · rw [if_pos hfrom]
      refine ⟨pairwise_singleton _ _, fun x hx => ?_, .inl ⟨r.toUnit + 1, rfl, ?_⟩⟩
      · rw [mem_singleton.mp hx]
        exact Nat.succ_pos _
      · by_contra hlt
        refine hev ⟨rfl, ?_⟩
        simp [isEverything]
        omega
    · rw [if_neg hfrom]
      refine ⟨hp, fun x hx => ?_, .inr ⟨[], _, _, rfl, hl [] r rfl⟩⟩
      rcases mem_cons.mp hx with rfl | hx
      · exact Nat.pos_of_ne_zero hfrom
      · exact Nat.zero_lt_of_lt (ha x hx)
  · have hl' : r'.fromUnit ≤ max := hl (r :: init) r' rfl
    have he : edges (init ++ [r']) = edges init ++ [r'.fromUnit, r'.toUnit + 1] :=
      flatMap_append
    by_cases hfrom : r.fromUnit = 0
    · rw [if_pos hfrom]
      refine ⟨hp.tail, fun x hx => Nat.zero_lt_of_lt (ha x hx), .inr ?_⟩
      exact ⟨(r.toUnit + 1) :: edges init, _, _, congrArg _ he, hl'⟩
    rw [if_neg hfrom]
    refine ⟨hp, fun x hx => ?_, .inr ?_⟩
    · rcases mem_cons.mp hx with rfl | hx
      · exact Nat.pos_of_ne_zero hfrom
      · exact Nat.zero_lt_of_lt (ha x hx)
    · rw [edges_cons, he]
      exact ⟨r.fromUnit :: (r.toUnit + 1) :: edges init, _, _, rfl, hl'⟩

theorem zeroth_eq_iff (h : Apart (r :: ranges)) :
    ((r :: ranges).foldl addBoundaries (!isNegated, [])).1 =
        decide (((r :: ranges).foldl addBoundaries (!isNegated, [])).2.countP (· ≤ c) % 2 = 1) ↔
      ((r :: ranges).any (·.contains c) != isNegated) = true := by
  have hc := countP_edges (c := c) h
  rw [foldl_addBoundaries_of_apart h]
  by_cases hfrom : r.fromUnit = 0
  · rw [edges_cons, countP_cons_of_pos (by simp [hfrom])] at hc
    rw [if_pos hfrom]
    dsimp only
    have hp : decide (((r.toUnit + 1) :: edges ranges).countP (· ≤ c) % 2 = 1) =
        !(r :: ranges).any (·.contains c) := by
      rw [Bool.eq_not, ne_eq, ← Bool.coe_iff_coe, decide_eq_true_iff, ← hc]
      omega
    rw [hp]
    cases isNegated <;> cases (r :: ranges).any (·.contains c) <;> decide
  · rw [if_neg hfrom]
    dsimp only
    have hp : decide ((edges (r :: ranges)).countP (· ≤ c) % 2 = 1) =
        (r :: ranges).any (·.contains c) := by
      rw [← Bool.coe_iff_coe, decide_eq_true_iff]
      exact hc
    rw [hp]
    cases isNegated <;> cases (r :: ranges).any (·.contains c) <;> decide

/-- The code for the boundaries, with the label for success bound at its end. -/
theorem Bounded.execute (h : Bounded max l) (hm : max < 2 ^ 16) (hl : onFailure < next)
    (hc : c ≤ max) :
    ∃ code ranges' next', generateBranches uninitialized l.length l 0 (Regexp.endIndex max l) 0 max
        next (if zeroth then next else onFailure) (if zeroth then onFailure else next) (next + 1) =
          some (code, ranges', next') ∧
      execute c (code ++ [.bindBlock next]) =
        if zeroth = decide (l.countP (· ≤ c) % 2 = 1) then none else some onFailure := by
  have he : (if zeroth then next else onFailure) < next + 1 := by
    split_ifs
    exacts [Nat.lt_succ_self next, Nat.lt_succ_of_lt hl]
  have ho : (if zeroth then onFailure else next) < next + 1 := by
    split_ifs
    exacts [Nat.lt_succ_of_lt hl, Nat.lt_succ_self next]
  obtain ⟨code, ranges', next', hg, hd⟩ := generateBranches_decides uninitialized next
    (h.searchSpace hm) h.endIndex.1 he ho
  refine ⟨code, ranges', next', hg, ?_⟩
  have hrg : Region (boundary l) 0 (Regexp.endIndex max l) c (l.countP (· ≤ c)) :=
    region_countP h.pairwise h.endIndex.1 fun i hi hlt =>
      hc.trans_lt (h.endIndex.2.2 i hi hlt)
  have hr := hd.reaches c _ (Nat.zero_le c) hc hrg
  have hf : step (Instr.branch c) Instr.binds (some onFailure) (.bindBlock next) =
      some onFailure := if_neg fun heq => hl.ne' (some.inj heq)
  have hb : step (Instr.branch c) Instr.binds (some next) (.bindBlock next) = none := if_pos rfl
  rw [execute_append, run_cons, run_nil]
  have ht : regionLabel (if zeroth then next else onFailure)
      (if zeroth then onFailure else next) (l.countP (· ≤ c)) =
        if zeroth = decide (l.countP (· ≤ c) % 2 = 1) then next else onFailure := by
    rw [regionLabel]
    split_ifs <;> simp_all
  rw [ht] at hr
  by_cases hin : zeroth = decide (l.countP (· ≤ c) % 2 = 1)
  · rw [if_pos hin] at hr ⊢
    rcases hr with hrn | ⟨hrn, -⟩
    · rw [hrn, hb]
    · rw [hrn]
      rfl
  · rw [if_neg hin] at hr ⊢
    rcases hr with hrn | ⟨-, hfall⟩
    · rw [hrn, hf]
    · exact absurd hfall hl.ne

theorem maxChar_lt (oneByte : Bool) : maxChar oneByte < 2 ^ 16 := by
  cases oneByte <;> decide

theorem emitCharClass_exact (uninitialized : ℕ → Bool) (ranges : List CharacterRange)
    (isNegated oneByte : Bool) (onFailure next : Label) (c : ℕ)
    (hcanonical : isCanonical ranges) (hlabel : onFailure < next)
    (hc : c ≤ maxChar oneByte) :
    ∃ code, emitCharClass uninitialized ranges isNegated oneByte onFailure next = some code ∧
      execute c code =
        if ranges.any (·.contains c) != isNegated then none else some onFailure := by
  have hv : validRanges (maxChar oneByte) ranges <+: ranges := rdropWhile_prefix _ _
  have ha : Apart (validRanges (maxChar oneByte) ranges) :=
    (apart_of_isCanonical hcanonical).sublist hv.sublist
  have hl (init : List CharacterRange) (r : CharacterRange) :
      validRanges (maxChar oneByte) ranges = init ++ [r] → r.fromUnit ≤ maxChar oneByte :=
    from_le_of_validRanges
  rw [← any_validRanges hc, emitCharClass]
  cases hv : validRanges (maxChar oneByte) ranges with
  | nil =>
    refine ⟨_, if_pos rfl, ?_⟩
    cases isNegated <;> rfl
  | cons r valid =>
    rw [hv] at ha hl
    dsimp only
    rw [if_neg (by simp)]
    by_cases hevery : (r :: valid).length = 1 ∧ (r :: valid).any (·.isEverything (maxChar oneByte))
    · obtain rfl : valid = [] := by simpa using hevery.1
      have hr : r.fromUnit = 0 ∧ maxChar oneByte ≤ r.toUnit := by
        simpa [isEverything] using hevery.2
      have hin : [r].any (·.contains c) = true := by
        simp [CharacterRange.contains]
        omega
      refine ⟨_, if_pos hevery, ?_⟩
      rw [hin]
      cases isNegated <;> rfl
    · rw [if_neg hevery]
      have hb : Bounded (maxChar oneByte)
          ((r :: valid).foldl addBoundaries (!isNegated, [])).2 :=
        bounded_boundaries ha hl hevery
      obtain ⟨code, _, _, hg, he⟩ :=
        hb.execute (maxChar_lt oneByte) hlabel hc
      refine ⟨code ++ [.bindBlock next], ?_, ?_⟩
      · rw [hg]
        rfl
      · rw [he]
        exact if_congr (zeroth_eq_iff ha) rfl rfl

def wordRanges : List CharacterRange :=
  [⟨48, 57, by decide, by decide⟩, ⟨65, 90, by decide, by decide⟩, ⟨95, 95, by decide, by decide⟩,
    ⟨97, 122, by decide, by decide⟩]

theorem emitCharClass_exact_word : isCanonical wordRanges ∧
    ∃ code, emitCharClass (fun _ => true) wordRanges false true 0 1 = some code ∧
      execute 95 code = none :=
  ⟨by decide, emitCharClass_exact (fun _ => true) wordRanges false true 0 1 95 (by decide)
    (by decide) (by decide)⟩

end Emit

end DartSdk.Vm.Regexp
