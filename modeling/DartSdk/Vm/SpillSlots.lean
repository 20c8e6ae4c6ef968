import DartSdk.Lib.SlotReuse
import DartSdk.Lib.Tiling

/-!
# Spill slots of the register allocator

`FlowGraphAllocator::AllocateSpillSlotFor` gives a live range a slot of the frame that is not used
by the ranges it overlaps.  Slots are allocated for the CPU registers first and then, from their end
on, for the FPU registers.

* `Represents.allocateSpillSlotFor`: the slots are cells of one slot, or of two for a quad, and an
  allocation gives out a cell that has expired or a new one.
* `spillSlots_noClash`: **live ranges that overlap never have words of the frame in common**, nor
  have a quad and a double, nor a tagged and an untagged value.
-/

namespace DartSdk.Vm.FlowGraphAllocator

open SlotReuse Tiling List Option

section Model

inductive Representation
  | noRepresentation
  | tagged
  | untagged
  | unboxedDouble
  | unboxedInt32
  | unboxedUint32
  | unboxedMint
  | unboxedFloat32x4
  | unboxedInt32x4
  | unboxedFloat64x2
  | pairOfTagged
  | pairOfUnboxedDouble
  deriving DecidableEq

def Representation.isQuad (r : Representation) : Bool :=
  r = .unboxedFloat32x4 || r = .unboxedInt32x4 || r = .unboxedFloat64x2

inductive RegisterKind
  | register
  | fpuRegister
  deriving DecidableEq

/-- A half open interval of lifetime positions. -/
structure UseInterval where
  start : ℤ
  finish : ℤ
  start_lt_finish : start < finish

/-- A live range, without its siblings. -/
structure LiveRange where
  firstUseInterval : UseInterval
  nextUseIntervals : List UseInterval
  ordered : (firstUseInterval :: nextUseIntervals).IsChain fun i j => i.finish ≤ j.start

def LiveRange.start (r : LiveRange) : ℤ := r.firstUseInterval.start

def lastEnd (i : UseInterval) : List UseInterval → ℤ
  | [] => i.finish
  | j :: rest => lastEnd j rest

def LiveRange.finish (r : LiveRange) : ℤ := lastEnd r.firstUseInterval r.nextUseIntervals

/-- A live range for which a slot is allocated, with the siblings that were split off it. -/
structure SplitRange where
  representation : Representation
  range : LiveRange
  nextSiblings : List LiveRange
  ordered : (range :: nextSiblings).IsChain fun r s => r.finish ≤ s.start

def lastSibling (r : LiveRange) : List LiveRange → LiveRange
  | [] => r
  | s :: rest => lastSibling s rest

def SplitRange.start (r : SplitRange) : ℤ := r.range.start

def SplitRange.finish (r : SplitRange) : ℤ := (lastSibling r.range r.nextSiblings).finish

/-- An entry of `spill_slots_`, `quad_spill_slots_` and `untagged_spill_slots_`. -/
structure SpillSlot where
  expiration : ℤ
  quad : Bool
  untagged : Bool
  deriving DecidableEq

/-- The word size of the target decides how many words a double takes. -/
inductive Target
  | bits32
  | bits64

def kDoubleSize : ℕ := 8

def kWordSize : Target → ℕ
  | .bits32 => 4
  | .bits64 => 8

def kDoubleSpillFactor (target : Target) : ℕ := kDoubleSize / kWordSize target

inductive Location
  | stackSlot (index : ℕ)
  | doubleStackSlot (index : ℕ)
  | quadStackSlot (index : ℕ)
  deriving DecidableEq

def Location.isQuad : Location → Bool
  | .quadStackSlot _ => true
  | _ => false

/-- The words of the frame, by their indices.  The index of a slot is that of its word with the
lowest address, which is the highest index. -/
def Location.words (target : Target) : Location → Block
  | .stackSlot i => ⟨i, 1⟩
  | .doubleStackSlot i =>
    ⟨i + 1 - kDoubleSpillFactor target, kDoubleSpillFactor target⟩
  | .quadStackSlot i =>
    ⟨i + 1 - 2 * kDoubleSpillFactor target, 2 * kDoubleSpillFactor target⟩

structure Allocator where
  target : Target
  registerKind : RegisterKind
  fixedSlotCount : ℕ
  cpuSpillSlotCount : ℕ
  spillSlots : List SpillSlot

def needQuad (kind : RegisterKind) (r : Representation) : Bool :=
  kind = .fpuRegister && r.isQuad

def needUntagged (kind : RegisterKind) (r : Representation) : Bool :=
  kind = .register && r = .untagged

namespace Allocator

variable (a : Allocator)

/-- The index from which a free slot is searched; the slots reserved for try-catch come first. -/
def firstIndex : ℕ :=
  match a.registerKind with
  | .register => a.fixedSlotCount
  | .fpuRegister => 0

/-- Search for a free spill slot among allocated: the value in it should be dead and its type
should match. -/
def findFreeSlot (quad untagged : Bool) (start : ℤ) : ℕ :=
  a.firstIndex + (a.spillSlots.drop a.firstIndex).findIdx fun s =>
    quad == s.quad && untagged == s.untagged && decide (s.expiration ≤ start)

/-- The slots, with a new one if no free one was found. -/
def addSlot (quad untagged : Bool) (idx : ℕ) : List SpillSlot :=
  if idx = a.spillSlots.length then
    a.spillSlots ++ List.replicate (if quad then 2 else 1) ⟨0, quad, untagged⟩
  else a.spillSlots

/-- Set the expiration boundary to the end of the live range, for both halves of a quad.  The index
is that of the higher half. -/
def occupy (slots : List SpillSlot) (quad : Bool) (idx : ℕ) (finish : ℤ) :
    Option (ℕ × List SpillSlot) := do
  let slot ← slots[idx]?
  let slots := slots.set idx { slot with expiration := finish }
  if quad then do
    let next ← slots[idx + 1]?
    if slot.quad && next.quad then
      some (idx + 1, slots.set (idx + 1) { next with expiration := finish })
    else none
  else if slot.quad then none
  else some (idx, slots)

/-- The location of the slot with this index. -/
def location (r : Representation) (idx : ℕ) : Option Location :=
  match a.registerKind with
  | .register => some (.stackSlot idx)
  | .fpuRegister =>
    let factor := kDoubleSpillFactor a.target
    let slotIdx := a.cpuSpillSlotCount + idx * factor + (factor - 1)
    if r.isQuad then some (.quadStackSlot slotIdx)
    else if r = .unboxedDouble then some (.doubleStackSlot slotIdx)
    else none

/-- `AllocateSpillSlotFor`, which fails where an assertion does. -/
def allocateSpillSlotFor (range : SplitRange) : Option (Location × Allocator) := do
  let quad := needQuad a.registerKind range.representation
  let untagged := needUntagged a.registerKind range.representation
  let idx := a.findFreeSlot quad untagged range.start
  let (idx, slots) ← occupy (a.addSlot quad untagged idx) quad idx range.finish
  let location ← a.location range.representation idx
  return (location, { a with spillSlots := slots })

/-- The ranges for which slots are allocated, one after the other, with their slots. -/
def allocateSpillSlots : Allocator → List SplitRange → Option (List (SplitRange × Location) × Allocator)
  | a, [] => some ([], a)
  | a, range :: ranges => do
    let (location, a) ← a.allocateSpillSlotFor range
    let (spilled, a) ← allocateSpillSlots a ranges
    return ((range, location) :: spilled, a)

/-- The slots for the FPU registers are allocated after all those for the CPU registers. -/
def prepareForFpu : Allocator :=
  { a with
    registerKind := .fpuRegister
    cpuSpillSlotCount := a.spillSlots.length
    spillSlots := [] }

end Allocator

end Model

open Allocator

section Ranges

theorem start_lt_lastEnd (i : UseInterval) (rest : List UseInterval)
    (h : (i :: rest).IsChain fun i j => i.finish ≤ j.start) : i.start < lastEnd i rest := by
  induction rest generalizing i with
  | nil => exact i.start_lt_finish
  | cons j rest ih =>
    rw [isChain_cons_cons] at h
    have hj := ih j h.2
    have hi := i.start_lt_finish
    rw [lastEnd]
    omega

theorem LiveRange.start_lt_finish (r : LiveRange) : r.start < r.finish :=
  start_lt_lastEnd _ _ r.ordered

theorem start_lt_lastSibling (r : LiveRange) (rest : List LiveRange)
    (h : (r :: rest).IsChain fun r s => r.finish ≤ s.start) :
    r.start < (lastSibling r rest).finish := by
  induction rest generalizing r with
  | nil => exact r.start_lt_finish
  | cons s rest ih =>
    rw [isChain_cons_cons] at h
    have hs := ih s h.2
    have hr := r.start_lt_finish
    rw [lastSibling]
    omega

theorem SplitRange.start_lt_finish (r : SplitRange) : r.start < r.finish :=
  start_lt_lastSibling _ _ r.ordered

end Ranges

variable {cells : List (Cell CellKind)} {a : Allocator} {first : ℕ}

section Cells

/-- Whether a cell is for a quad, and whether it is for an untagged value. -/
abbrev CellKind := Bool × Bool

def width (kind : CellKind) : ℕ := if kind.1 then 2 else 1

/-- A cell is one slot, or the two slots of a quad. -/
def cellSlots (c : Cell CellKind) : List SpillSlot :=
  List.replicate (width c.kind) ⟨c.expiration, c.kind.1, c.kind.2⟩

def slotsOf (cells : List (Cell CellKind)) : List SpillSlot := cells.flatMap cellSlots

def SplitRange.request (kind : RegisterKind) (r : SplitRange) : Request CellKind where
  kind := (needQuad kind r.representation, needUntagged kind r.representation)
  start := r.start
  finish := r.finish
  start_le_finish := Int.le_of_lt r.start_lt_finish

variable {cells' pre post : List (Cell CellKind)} {c : Cell CellKind} {k : ℕ}

@[simp] theorem slotsOf_append : slotsOf (cells ++ cells') = slotsOf cells ++ slotsOf cells' :=
  flatMap_append

@[simp] theorem slotsOf_cons : slotsOf (c :: cells) = cellSlots c ++ slotsOf cells :=
  flatMap_cons

@[simp] theorem length_cellSlots : (cellSlots c).length = width c.kind :=
  length_replicate

theorem width_pos (kind : CellKind) : 0 < width kind := by
  rw [width]
  split <;> decide

theorem length_slotsOf : (slotsOf cells).length = ((cells.map Cell.kind).map width).sum := by
  induction cells with
  | nil => rfl
  | cons c cells ih => rw [slotsOf_cons, length_append, ih, length_cellSlots]; rfl

theorem offset_eq (k : ℕ) :
    offset width (cells.map Cell.kind) k = (slotsOf (cells.take k)).length := by
  rw [offset, ← map_take, length_slotsOf]

theorem findIdx_slotsOf (p : SpillSlot → Bool) (q : Cell CellKind → Bool)
    (h : ∀ c, p ⟨c.expiration, c.kind.1, c.kind.2⟩ = q c) (cells : List (Cell CellKind)) :
    (slotsOf cells).findIdx p = (slotsOf (cells.take (cells.findIdx q))).length := by
  induction cells with
  | nil => rfl
  | cons c cells ih =>
    obtain ⟨n, hn⟩ : ∃ n, width c.kind = n + 1 := ⟨_, (Nat.sub_add_cancel (width_pos _)).symm⟩
    cases hq : q c with
    | true =>
      have hp : p ⟨c.expiration, c.kind.1, c.kind.2⟩ = true := by rw [h, hq]
      rw [slotsOf_cons, cellSlots, hn, replicate_succ, cons_append, findIdx_cons, hp,
        findIdx_cons, hq]
      rfl
    | false =>
      have hp : ∀ s ∈ cellSlots c, p s = false := by
        intro s hs
        rw [eq_of_mem_replicate hs, h, hq]
      rw [slotsOf_cons, findIdx_append, findIdx_eq_length_of_false hp,
        if_neg (Nat.lt_irrefl _), findIdx_cons, hq, cond_false, take_succ_cons,
        slotsOf_cons, length_append, ih, Nat.add_comm]

/-- Setting the expiration of a slot, or of both halves of a quad, is setting that of the cell. -/
theorem occupy_slotsOf (pre post : List (Cell CellKind)) (c : Cell CellKind) (finish : ℤ) :
    occupy (slotsOf (pre ++ c :: post)) c.kind.1 (slotsOf pre).length finish =
      some ((slotsOf pre).length + (width c.kind - 1),
        slotsOf (pre ++ ⟨c.kind, finish⟩ :: post)) := by
  obtain ⟨⟨quad, _⟩, expiration⟩ := c
  rw [slotsOf_append, slotsOf_cons]
  cases quad with
  | false => simp [occupy, cellSlots, width]
  | true => simp [occupy, cellSlots, width, set_append_right]

variable {r : SplitRange}

/-- The cells of an allocator; the search starts at one of them. -/
structure Represents (cells : List (Cell CellKind)) (first : ℕ) (a : Allocator) : Prop where
  slots : a.spillSlots = slotsOf cells
  first_le : first ≤ cells.length
  firstIndex : a.firstIndex = (slotsOf (cells.take first)).length

def isFree (req : Request CellKind) (c : Cell CellKind) : Bool :=
  req.kind.1 == c.kind.1 && req.kind.2 == c.kind.2 && decide (c.expiration ≤ req.start)

theorem isFree_iff {req : Request CellKind} :
    isFree req c ↔ c.kind = req.kind ∧ c.expiration ≤ req.start := by
  rw [isFree, Bool.and_eq_true, Bool.and_eq_true, beq_iff_eq, beq_iff_eq, decide_eq_true_eq,
    Prod.ext_iff, eq_comm, eq_comm (a := req.kind.2)]

theorem Represents.findFreeSlot (h : Represents cells first a) (req : Request CellKind) :
    a.findFreeSlot req.kind.1 req.kind.2 req.start =
      (slotsOf (cells.take (first + (cells.drop first).findIdx (isFree req)))).length := by
  have hd : a.spillSlots.drop a.firstIndex = slotsOf (cells.drop first) := by
    rw [h.slots, h.firstIndex]
    conv_lhs => rw [← take_append_drop first cells, slotsOf_append]
    rw [take_append_drop, drop_left]
  rw [Allocator.findFreeSlot, hd, h.firstIndex,
    findIdx_slotsOf _ (isFree req) fun _ => rfl, take_add, slotsOf_append,
    length_append]

/-- **A free slot is a free cell or a new one.** -/
theorem Represents.addSlot (h : Represents cells first a) (req : Request CellKind) :
    ∃ pre c post, a.findFreeSlot req.kind.1 req.kind.2 req.start = (slotsOf pre).length ∧
      a.addSlot req.kind.1 req.kind.2 (slotsOf pre).length = slotsOf (pre ++ c :: post) ∧
      c.kind = req.kind ∧ Step cells req pre.length (pre ++ ⟨req.kind, req.finish⟩ :: post) := by
  rw [h.findFreeSlot req]
  generalize hk : first + (cells.drop first).findIdx (isFree req) = k
  by_cases hlt : k < cells.length
  · have hfr : isFree req cells[k] := by
      have hf : (cells.drop first).findIdx (isFree req) < (cells.drop first).length := by
        rw [length_drop]
        omega
      have hg := findIdx_getElem (w := hf)
      rw [getElem_drop] at hg
      simpa only [hk] using hg
    have hs : cells = cells.take k ++ cells[k] :: cells.drop (k + 1) := by
      rw [getElem_cons_drop, take_append_drop]
    obtain ⟨hkn, he⟩ := isFree_iff.mp hfr
    refine ⟨cells.take k, cells[k], cells.drop (k + 1), rfl, ?_, hkn, ?_⟩
    · rw [Allocator.addSlot, if_neg, h.slots, ← hs]
      rw [h.slots]
      have hl := congrArg (fun l => (slotsOf l).length) hs
      simp only [slotsOf_append, slotsOf_cons, length_append, length_cellSlots] at hl
      have := width_pos cells[k].kind
      omega
    · have hst : cells.set k ⟨req.kind, req.finish⟩ =
          cells.take k ++ ⟨req.kind, req.finish⟩ :: cells.drop (k + 1) := by
        rw [set_eq_take_append_cons_drop, if_pos hlt]
      rw [length_take, Nat.min_eq_left hlt.le, ← hst]
      exact .reuse (getElem?_eq_getElem hlt) hkn he
  · have hle : k ≤ cells.length := by
      have hf : (cells.drop first).findIdx (isFree req) ≤ (cells.drop first).length :=
        findIdx_le_length
      have hfs := h.first_le
      rw [length_drop] at hf
      omega
    obtain rfl : k = cells.length := by omega
    refine ⟨cells, ⟨req.kind, 0⟩, [], by rw [take_length], ?_, rfl, .fresh⟩
    rw [Allocator.addSlot, h.slots, if_pos rfl, slotsOf_append, slotsOf_cons]
    exact congrArg _ (append_nil _).symm

/-- The words of a cell that begins with the given slot. -/
def cellWords (a : Allocator) (kind : CellKind) (o : ℕ) : Block :=
  match a.registerKind with
  | .register => ⟨o, 1⟩
  | .fpuRegister => ⟨a.cpuSpillSlotCount + o * kDoubleSpillFactor a.target,
      width kind * kDoubleSpillFactor a.target⟩

/-- What is allocated for FPU registers is a double or a quad. -/
def FpuRepresentation (r : SplitRange) : Prop :=
  r.representation.isQuad = true ∨ r.representation = .unboxedDouble

theorem kDoubleSpillFactor_pos (target : Target) : 0 < kDoubleSpillFactor target := by
  cases target <;> decide

/-- The location is that of a cell for the range which begins with the given slot. -/
@[mk_iff] structure IsAt (a : Allocator) (r : SplitRange) (o : ℕ) (location : Location) : Prop where
  words : location.words a.target = cellWords a (r.request a.registerKind).kind o
  quad : location.isQuad = (r.request a.registerKind).kind.1

theorem location_isAt (o : ℕ) (hr : a.registerKind = .fpuRegister → FpuRepresentation r) :
    ∃ location, a.location r.representation
      (o + (width (r.request a.registerKind).kind - 1)) = some location ∧ IsAt a r o location := by
  have hp := kDoubleSpillFactor_pos a.target
  simp only [isAt_iff, location, cellWords]
  cases hk : a.registerKind with
  | register => exact ⟨_, rfl, rfl, rfl⟩
  | fpuRegister =>
    have hkn : width (r.request .fpuRegister).kind = if r.representation.isQuad then 2 else 1 :=
      rfl
    simp only [hkn]
    cases hq : r.representation.isQuad with
    | true =>
      refine ⟨_, rfl, ?_, hq.symm⟩
      simp only [Location.words, if_true, Block.mk.injEq, and_true]
      generalize kDoubleSpillFactor a.target = factor at hp
      have : (o + (2 - 1)) * factor = o * factor + factor := by
        rw [Nat.add_mul, Nat.one_mul]
      omega
    | false =>
      have hd : r.representation = .unboxedDouble := by
        rcases hr hk with h | h
        · rw [hq] at h
          cases h
        · exact h
      refine ⟨_, if_pos hd, ?_, hq.symm⟩
      simp only [Location.words, Bool.false_eq_true, if_false, Nat.sub_self, Nat.add_zero,
        Nat.one_mul, Block.mk.injEq, and_true]
      omega

/-- **The model of the code takes a step of the abstract one.** -/
theorem Represents.allocateSpillSlotFor (h : Represents cells first a)
    (hr : a.registerKind = .fpuRegister → FpuRepresentation r) :
    ∃ k cells' location, a.allocateSpillSlotFor r =
        some (location, { a with spillSlots := slotsOf cells' }) ∧
      Step cells (r.request a.registerKind) k cells' ∧
      IsAt a r (offset width (cells'.map Cell.kind) k) location := by
  obtain ⟨pre, c, post, hi, ha, hk, hs⟩ := h.addSlot (r.request a.registerKind)
  obtain ⟨location, hl, hat⟩ := location_isAt (slotsOf pre).length hr
  have ho := occupy_slotsOf pre post c r.finish
  rw [hk] at ho
  refine ⟨_, _, location, ?_, hs, ?_⟩
  · dsimp only [SplitRange.request] at hi ha ho hl
    rw [Allocator.allocateSpillSlotFor, hi, ha, ho]
    simp only [bind_eq_bind, bind_some, hl]
    rfl
  · rw [offset_eq, take_left]
    exact hat

end Cells

variable {init : List (Cell CellKind)}

section Runs

/-- A range that has been given a location in the cell with this number. -/
structure Entry where
  range : SplitRange
  location : Location
  cell : ℕ

def Entry.spilled (e : Entry) : SplitRange × Location := (e.range, e.location)

def Entry.served (kind : RegisterKind) (e : Entry) : Request CellKind × ℕ :=
  (e.range.request kind, e.cell)

/-- The location of an entry is that of its cell, which is of the kind that was asked for. -/
structure Entry.InCell (a : Allocator) (cells : List (Cell CellKind)) (e : Entry) : Prop where
  isAt : IsAt a e.range (offset width (cells.map Cell.kind) e.cell) e.location
  kind : (cells.map Cell.kind)[e.cell]? = some (e.range.request a.registerKind).kind

variable {served : List (Request CellKind × ℕ)}

theorem Represents.step (h : Represents cells first a) {req : Request CellKind} {k : ℕ}
    {cells' : List (Cell CellKind)} (hs : Step cells req k cells') :
    Represents cells' first { a with spillSlots := slotsOf cells' } where
  slots := rfl
  first_le := by
    have hl := hs.kinds_mono.length_le
    rw [length_map, length_map] at hl
    exact Nat.le_trans h.first_le hl
  firstIndex := by
    show a.firstIndex = _
    rw [h.firstIndex, ← offset_eq, ← offset_eq, offset_grow hs.kinds_mono]
    rw [length_map]
    exact h.first_le

/-- **A run of allocations is a run of the abstract model.** -/
theorem Represents.allocateSpillSlots (ranges : List SplitRange) (h : Represents cells first a)
    (hrn : Run init served cells)
    (hr : a.registerKind = .fpuRegister → ∀ r ∈ ranges, FpuRepresentation r) :
    ∃ (entries : List Entry) (cells' : List (Cell CellKind)), a.allocateSpillSlots ranges =
        some ((entries.map Entry.spilled).reverse, { a with spillSlots := slotsOf cells' }) ∧
      (entries.map Entry.range).reverse = ranges ∧
      Run init (entries.map (Entry.served a.registerKind) ++ served) cells' ∧
      (∀ e ∈ entries, e.InCell a cells') ∧ cells.map Cell.kind <+: cells'.map Cell.kind := by
  induction ranges generalizing a cells served with
  | nil =>
    refine ⟨[], cells, ?_, rfl, hrn, nofun, prefix_rfl⟩
    rw [allocateSpillSlots, ← h.slots]
    rfl
  | cons r ranges ih =>
    obtain ⟨k, cells₁, location, ha, hs, hw⟩ :=
      h.allocateSpillSlotFor fun hk => hr hk r mem_cons_self
    obtain ⟨entries, cells', ha', hrg, hrn', hin, hp⟩ :=
      ih (h.step hs) (hrn.step hs) fun hk r' hr' => hr hk r' (mem_cons_of_mem _ hr')
    refine ⟨entries ++ [⟨r, location, k⟩], cells', ?_, ?_, ?_, ?_,
      hs.kinds_mono.trans hp⟩
    · rw [allocateSpillSlots, ha]
      simp only [bind_eq_bind, bind_some, ha', map_append, reverse_append]
      rfl
    · rw [map_append, reverse_append, hrg]
      rfl
    · rw [map_append, append_assoc]
      exact hrn'
    · intro e he
      rcases mem_append.mp he with he | he
      · obtain ⟨⟨hw, hq⟩, hkn⟩ := hin e he
        exact ⟨⟨hw, hq⟩, hkn⟩
      obtain rfl := mem_singleton.mp he
      have hkn : (cells₁.map Cell.kind)[k]? = some (r.request a.registerKind).kind := by
        rw [getElem?_map, hs.cell]
        rfl
      obtain ⟨hlt, -⟩ := List.getElem?_eq_some_iff.mp hkn
      refine ⟨?_, ?_⟩
      · rw [offset_grow hp hlt.le]
        exact hw
      · obtain ⟨_, heq⟩ := hp
        rw [← heq, getElem?_append_left hlt, hkn]

end Runs

section NoClash

variable {p q : Entry}

theorem cellWords_disjoint {kind kind' : CellKind} {o o' : ℕ} (h : o + width kind ≤ o') :
    (cellWords a kind o).Disjoint (cellWords a kind' o') := by
  refine .inl ?_
  have hw := width_pos kind
  rw [cellWords, cellWords, Block.endAddr]
  cases a.registerKind with
  | register =>
    show o + 1 ≤ o'
    omega
  | fpuRegister =>
    have hm := Nat.mul_le_mul_right (kDoubleSpillFactor a.target) h
    rw [Nat.add_mul] at hm
    show a.cpuSpillSlotCount + o * kDoubleSpillFactor a.target +
      width kind * kDoubleSpillFactor a.target ≤
        a.cpuSpillSlotCount + o' * kDoubleSpillFactor a.target
    omega

theorem InCell.disjoint (hp : p.InCell a cells) (hq : q.InCell a cells) (hne : p.cell ≠ q.cell) :
    (p.location.words a.target).Disjoint (q.location.words a.target) := by
  rw [hp.isAt.words, hq.isAt.words]
  rcases Nat.lt_or_gt_of_ne hne with hlt | hlt
  · exact cellWords_disjoint (offset_le hp.kind hlt)
  · exact (cellWords_disjoint (offset_le hq.kind hlt)).symm

/-- Ranges that overlap have disjoint locations; so have, whether they overlap or not, a quad and
another location, and an untagged value and another one. -/
structure NoClash (target : Target) (p q : SplitRange × Location) : Prop where
  overlap : p.1.start < q.1.finish → q.1.start < p.1.finish →
    (p.2.words target).Disjoint (q.2.words target)
  quad : p.2.isQuad ≠ q.2.isQuad → (p.2.words target).Disjoint (q.2.words target)
  untagged : (p.1.representation = .untagged) ≠ (q.1.representation = .untagged) →
    (p.2.words target).Disjoint (q.2.words target)

theorem NoClash.of_disjoint {target : Target} {p q : SplitRange × Location}
    (h : (p.2.words target).Disjoint (q.2.words target)) : NoClash target p q :=
  ⟨fun _ _ => h, fun _ => h, fun _ => h⟩

theorem NoClash.symm {target : Target} {p q : SplitRange × Location} (h : NoClash target p q) :
    NoClash target q p where
  overlap h₁ h₂ := (h.overlap h₂ h₁).symm
  quad hne := (h.quad hne.symm).symm
  untagged hne := (h.untagged hne.symm).symm

/-- Ranges in one cell are of one kind, and one ends before the other starts. -/
theorem noClash_of_cell (hr : a.registerKind = .fpuRegister →
      FpuRepresentation p.range ∧ FpuRepresentation q.range)
    (hp : p.InCell a cells) (hq : q.InCell a cells)
    (hkn : (p.range.request a.registerKind).kind = (q.range.request a.registerKind).kind)
    (hle : q.range.finish ≤ p.range.start) : NoClash a.target p.spilled q.spilled where
  overlap h _ := by
    have hlt : p.range.start < q.range.finish := h
    omega
  quad hne := by
    refine absurd ?_ hne
    show p.location.isQuad = q.location.isQuad
    rw [hp.isAt.quad, hq.isAt.quad, hkn]
  untagged hne := by
    refine absurd (propext ?_) hne
    show p.range.representation = .untagged ↔ q.range.representation = .untagged
    have hn : needUntagged a.registerKind p.range.representation =
      needUntagged a.registerKind q.range.representation := congrArg Prod.snd hkn
    have hf {r : SplitRange} (h : FpuRepresentation r) : r.representation ≠ .untagged := by
      intro heq
      rw [FpuRepresentation, heq] at h
      revert h
      decide
    cases hk : a.registerKind with
    | register =>
      rw [hk] at hn
      simpa [needUntagged] using hn
    | fpuRegister =>
      obtain ⟨h₁, h₂⟩ := hr hk
      exact iff_of_false (hf h₁) (hf h₂)

/-- **The allocations for registers of one kind succeed and do not clash.** -/
theorem Represents.noClash {first : ℕ} (h : Represents init first a) (ranges : List SplitRange)
    (hr : a.registerKind = .fpuRegister → ∀ r ∈ ranges, FpuRepresentation r) :
    ∃ spilled cells, a.allocateSpillSlots ranges =
        some (spilled, { a with spillSlots := slotsOf cells }) ∧
      spilled.map Prod.fst = ranges ∧ spilled.Pairwise (NoClash a.target) ∧
      ∀ p ∈ spilled, ∃ kind o, p.2.words a.target = cellWords a kind o ∧
        o + width kind ≤ (slotsOf cells).length := by
  obtain ⟨entries, cells, ha, hrn, hru, hin, -⟩ :=
    h.allocateSpillSlots ranges .start hr
  rw [append_nil] at hru
  have hf : a.registerKind = .fpuRegister → ∀ e ∈ entries, FpuRepresentation e.range := by
    intro hk e he
    refine hr hk _ ?_
    rw [← hrn, mem_reverse]
    exact List.mem_map_of_mem he
  refine ⟨_, cells, ha, ?_, ?_, ?_⟩
  · rw [← hrn, map_reverse, List.map_map]
    rfl
  · rw [pairwise_reverse, pairwise_map]
    have hpr := pairwise_map.mp hru.pairwise
    refine hpr.imp_of_mem fun {p q} hp hq hsh => NoClash.symm ?_
    by_cases hne : p.cell = q.cell
    · obtain ⟨hkn, hle⟩ := hsh hne
      exact noClash_of_cell (fun hk => ⟨hf hk p hp, hf hk q hq⟩) (hin p hp) (hin q hq) hkn hle
    · exact .of_disjoint (InCell.disjoint (hin p hp) (hin q hq) hne)
  · intro s hs
    rw [mem_reverse] at hs
    obtain ⟨e, he, rfl⟩ := List.mem_map.mp hs
    refine ⟨_, _, (hin e he).isAt.words, ?_⟩
    obtain ⟨hlt, -⟩ := List.getElem?_eq_some_iff.mp (hin e he).kind
    have ht : offset width (cells.map Cell.kind) cells.length = (slotsOf cells).length := by
      rw [offset_eq, take_length]
    rw [length_map] at hlt
    rw [← ht]
    exact offset_le (hin e he).kind hlt

/-- The slots of the parameters and of the constants at catch entries, which are used up to the
given positions. -/
def initial (target : Target) (fixedSlotCount : ℕ) (reserved : List ℤ) : Allocator where
  target := target
  registerKind := .register
  fixedSlotCount := fixedSlotCount
  cpuSpillSlotCount := 0
  spillSlots := reserved.map fun e => ⟨e, false, false⟩

theorem slotsOf_reserved (reserved : List ℤ) :
    slotsOf (reserved.map fun e => ⟨(false, false), e⟩) =
      reserved.map fun e => ⟨e, false, false⟩ := by
  induction reserved with
  | nil => rfl
  | cons e reserved ih =>
    rw [map_cons, slotsOf_cons, ih]
    rfl

theorem represents_initial (target : Target) {fixedSlotCount : ℕ} {reserved : List ℤ}
    (hf : fixedSlotCount ≤ reserved.length) :
    Represents (reserved.map fun e => ⟨(false, false), e⟩) fixedSlotCount
      (initial target fixedSlotCount reserved) where
  slots := (slotsOf_reserved reserved).symm
  first_le := by rwa [length_map]
  firstIndex := by
    rw [← map_take, slotsOf_reserved, length_map, length_take, Nat.min_eq_left hf]
    rfl

/-- **Spill slots never clash**, in whatever order the live ranges come.  At least the fixed slots
are reserved. -/
theorem spillSlots_noClash (target : Target) {fixedSlotCount : ℕ} {reserved : List ℤ}
    (hfixed : fixedSlotCount ≤ reserved.length) (cpu fpu : List SplitRange)
    (hfpu : ∀ r ∈ fpu, FpuRepresentation r) :
    ∃ cpuSpilled a fpuSpilled a',
      (initial target fixedSlotCount reserved).allocateSpillSlots cpu = some (cpuSpilled, a) ∧
      a.prepareForFpu.allocateSpillSlots fpu = some (fpuSpilled, a') ∧
      cpuSpilled.map Prod.fst = cpu ∧ fpuSpilled.map Prod.fst = fpu ∧
      (cpuSpilled ++ fpuSpilled).Pairwise (NoClash target) := by
  obtain ⟨cpuSpilled, cells, hcu, hc, hcp, hcw⟩ :=
    (represents_initial target hfixed).noClash cpu nofun
  let a : Allocator := { initial target fixedSlotCount reserved with spillSlots := slotsOf cells }
  have hr : Represents [] 0 a.prepareForFpu := ⟨rfl, le_rfl, rfl⟩
  obtain ⟨fpuSpilled, _, hfa, hf, hfp, hfw⟩ :=
    hr.noClash fpu fun _ => hfpu
  refine ⟨cpuSpilled, a, fpuSpilled, _, hcu, hfa, hc, hf, ?_⟩
  refine pairwise_append.mpr ⟨hcp, hfp, fun p hp q hq => .of_disjoint ?_⟩
  -- the words for FPU registers come after those for CPU registers
  obtain ⟨kind, o, hp, hle⟩ := hcw p hp
  obtain ⟨kind', o', hq, -⟩ := hfw q hq
  have hp' : p.2.words target = ⟨o, 1⟩ := hp
  have hq' : q.2.words target = ⟨(slotsOf cells).length + o' * kDoubleSpillFactor target,
    width kind' * kDoubleSpillFactor target⟩ := hq
  rw [hp', hq']
  refine .inl ?_
  have hw := width_pos kind
  show o + 1 ≤ (slotsOf cells).length + o' * kDoubleSpillFactor target
  omega

/-- A live range of one interval that has not been split. -/
def singleRange (representation : Representation) (start finish : ℤ) (h : start < finish) :
    SplitRange :=
  ⟨representation, ⟨⟨start, finish, h⟩, [], .singleton _⟩, [], .singleton _⟩

theorem spillSlots_noClash_mixed : ∃ cpuSpilled a fpuSpilled a',
    (initial .bits32 1 [5]).allocateSpillSlots
      [singleRange .tagged 4 10 (by decide), singleRange .untagged 0 3 (by decide)] =
        some (cpuSpilled, a) ∧
    a.prepareForFpu.allocateSpillSlots
      [singleRange .unboxedFloat32x4 2 6 (by decide), singleRange .unboxedDouble 0 8 (by decide)] =
        some (fpuSpilled, a') ∧
    (cpuSpilled ++ fpuSpilled).Pairwise (NoClash .bits32) := by
  obtain ⟨cpuSpilled, a, fpuSpilled, a', hc, hf, -, -, hp⟩ :=
    spillSlots_noClash .bits32 (show 1 ≤ [(5 : ℤ)].length by decide)
      [singleRange .tagged 4 10 (by decide), singleRange .untagged 0 3 (by decide)]
      [singleRange .unboxedFloat32x4 2 6 (by decide), singleRange .unboxedDouble 0 8 (by decide)]
      (by
        intro r hr
        rcases mem_cons.mp hr with rfl | hr
        · exact .inl rfl
        · cases mem_singleton.mp hr
          exact .inr rfl)
  exact ⟨cpuSpilled, a, fpuSpilled, a', hc, hf, hp⟩

end NoClash

end DartSdk.Vm.FlowGraphAllocator
