import DartSdk.Lib.Tiling
import DartSdk.Vm.BitSet
import DartSdk.Vm.RawObject

/-!
# Vm.FreeList — the segregated free list of `vm/freelist.cc`

Free blocks below `kNumLists * kObjectAlignment` bytes are kept in one list per size, larger ones in
a last list.  Two summaries, a bit set of the non-empty small lists and the largest small size, are
updated on every enqueue and dequeue.

* `FreeList.Inv`: lists, bit set and largest small size agree; `enqueueElement_spec`,
  `dequeueElement_spec` and `splitElementAfterAndEnqueue_spec` keep it.
* `Reachable`: the states after any sequence of calls, with the memory given and the blocks handed
  out; `reachable_ok` is the run lemma.
* `freeList_invariant`: representation, conservation and when an allocation may fail.

Page protection (`is_protected`) changes no list and is left out.
-/

namespace DartSdk.Vm

open DartSdk.Tiling List Option

/-- The class id of free list elements. -/
def kFreeListElement : ℕ := 116

/-- A free block with the words the free list writes into it: the tags, and the size behind the next
pointer when the tags cannot hold it. -/
structure FreeListElement where
  addr : ℕ
  tags : Word
  embeddedSize : Option ℕ
deriving DecidableEq, Repr

open FreeListElement

namespace FreeListElement

def asElement (addr size : ℕ) : FreeListElement where
  addr := addr
  tags := RawObject.classIdTag.update (BitVec.ofNat 64 kFreeListElement)
    (RawObject.sizeTagUpdate size 0)
  embeddedSize := if size > RawObject.kMaxSizeTag then some size else none

def size (e : FreeListElement) : ℕ :=
  let size := RawObject.sizeTagDecode e.tags
  if size ≠ 0 then size else e.embeddedSize.getD 0

def block (e : FreeListElement) : Block := ⟨e.addr, e.size⟩

theorem size_asElement (addr : ℕ) {size : ℕ} (h : kObjectAlignment ∣ size) :
    (asElement addr size).size = size := by
  have ht : RawObject.sizeTagDecode (asElement addr size).tags =
      if size > RawObject.kMaxSizeTag then 0 else size := by
    rw [asElement, RawObject.sizeTagDecode_classId (by decide), RawObject.sizeTag_decode_update h]
  simp only [FreeListElement.size, ht]
  split_ifs <;> simp_all [asElement]

theorem block_asElement (addr : ℕ) {size : ℕ} (h : kObjectAlignment ∣ size) :
    (asElement addr size).block = ⟨addr, size⟩ := by
  rw [block, size_asElement addr h]
  rfl

end FreeListElement

def kNumLists : ℕ := 128

/-- The lists are chained through the elements; the last one holds the large elements. -/
structure FreeList where
  freeMap : BitSet kNumLists
  freeLists : List (List FreeListElement)
  lastFreeSmallSize : ℤ
  length_eq : freeLists.length = kNumLists + 1
deriving DecidableEq

namespace FreeList

section

variable (fl : FreeList)

def list (index : ℕ) : List FreeListElement := fl.freeLists.getD index []

/-- `free_lists_[index] = l`. -/
def setList (index : ℕ) (l : List FreeListElement) : FreeList :=
  { fl with
    freeLists := fl.freeLists.set index l
    length_eq := by rw [length_set, fl.length_eq] }

def reset : FreeList :=
  ⟨BitSet.reset kNumLists, List.replicate (kNumLists + 1) [], -1, length_replicate⟩

def indexForSize (size : ℕ) : ℕ :=
  let index := size >>> kObjectAlignmentLog2
  if index ≥ kNumLists then kNumLists else index

def enqueueElement (element : FreeListElement) (index : ℕ) : FreeList :=
  let next := fl.list index
  let fl' :=
    if next = [] ∧ index ≠ kNumLists then
      { fl with
        freeMap := fl.freeMap.set index true
        lastFreeSmallSize := max fl.lastFreeSmallSize (index <<< kObjectAlignmentLog2 : ℕ) }
    else fl
  fl'.setList index (element :: next)

/-- Defined on a non-empty list only. -/
def dequeueElement (index : ℕ) : Option (FreeListElement × FreeList) :=
  match fl.list index with
  | [] => none
  | result :: next =>
    let fl' :=
      if next = [] ∧ index ≠ kNumLists then
        let size := index <<< kObjectAlignmentLog2
        if (size : ℤ) = fl.lastFreeSmallSize then
          let (freeMap, last) := fl.freeMap.clearLastAndFindPrevious index
          { fl with freeMap := freeMap, lastFreeSmallSize := last * kObjectAlignment }
        else { fl with freeMap := fl.freeMap.set index false }
      else fl
    some (result, fl'.setList index next)

def splitElementAfterAndEnqueue (element : FreeListElement) (size : ℕ) : FreeList :=
  let remainderSize := element.size - size
  if remainderSize = 0 then fl
  else
    let remainder := FreeListElement.asElement (element.addr + size) remainderSize
    fl.enqueueElement remainder (indexForSize remainderSize)

def freeLocked (addr size : ℕ) : FreeList :=
  fl.enqueueElement (FreeListElement.asElement addr size) (indexForSize size)

/-- `Free`: `FreeLocked` under the lock. -/
def free (addr size : ℕ) : FreeList := fl.freeLocked addr size

/-- The first attempts of `TryAllocateLocked` and `TryAllocateSmallLocked`: an element of the
requested size, or the remainder of one from the next non-empty small list. -/
def tryAllocateFixed (size : ℕ) : Option (ℕ × FreeList) :=
  let index := indexForSize size
  if index ≠ kNumLists ∧ fl.freeMap.test index then
    (fl.dequeueElement index).map (fun (element, fl) => (element.addr, fl))
  else if index + 1 < kNumLists then
    let nextIndex := fl.freeMap.next (index + 1)
    if nextIndex ≠ -1 then
      (fl.dequeueElement nextIndex.toNat).map (fun (element, fl) =>
        (element.addr, fl.splitElementAfterAndEnqueue element size))
    else none
  else none

/-- The loops over the large elements: unlinks the first one of at least the given size. -/
def unlinkFirst (size : ℕ) : List FreeListElement → Option (FreeListElement × List FreeListElement)
  | [] => none
  | current :: next =>
    if current.size ≥ size then some (current, next)
    else (unlinkFirst size next).map (fun (e, l) => (e, current :: l))

/-- The address of the block, and the free list afterwards; no change on failure. -/
def tryAllocateLocked (size : ℕ) : Option (ℕ × FreeList) :=
  match fl.tryAllocateFixed size with
  | some r => some r
  | none => (unlinkFirst size (fl.list kNumLists)).map (fun (current, l) =>
      (current.addr, (fl.setList kNumLists l).splitElementAfterAndEnqueue current size))

def tryAllocateSmallLocked (size : ℕ) : Option (ℕ × FreeList) :=
  if (size : ℤ) > fl.lastFreeSmallSize then none else fl.tryAllocateFixed size

def tryAllocateLargeLocked (minimumSize : ℕ) : Option (FreeListElement × FreeList) :=
  (unlinkFirst minimumSize (fl.list kNumLists)).map (fun (current, l) =>
    (current, fl.setList kNumLists l))

def elements : List FreeListElement := fl.freeLists.flatten

def blocks : List Block := fl.elements.map block

/-! ## The representation invariant -/

/-- The sizes an element of list `index` may have. -/
def Fits (index : ℕ) (e : FreeListElement) : Prop :=
  kObjectAlignment ∣ e.size ∧ 0 < e.size ∧
    if index < kNumLists then e.size = index * kObjectAlignment
    else kNumLists * kObjectAlignment ≤ e.size

/-- `last_free_small_size_` names the largest non-empty small list, or is negative if all of them
are empty. -/
def LastOk : Prop :=
  (fl.lastFreeSmallSize < 0 ∧ ∀ i < kNumLists, fl.list i = []) ∨
  ∃ j < kNumLists, fl.lastFreeSmallSize = (j * kObjectAlignment : ℕ) ∧ fl.list j ≠ [] ∧
    ∀ i, j < i → i < kNumLists → fl.list i = []

end

structure Inv (fl : FreeList) : Prop where
  fits : ∀ i ≤ kNumLists, ∀ e ∈ fl.list i, Fits i e
  map : ∀ i < kNumLists, fl.freeMap.bit i = true ↔ fl.list i ≠ []
  last : fl.LastOk

variable {fl : FreeList} {e : FreeListElement}

section Lists

variable {i j : ℕ} {l : List FreeListElement}

theorem lt_length (hi : i ≤ kNumLists) : i < fl.freeLists.length := by
  rw [fl.length_eq]
  omega

theorem list_setList (hi : i ≤ kNumLists) : (fl.setList i l).list j = if i = j then l else fl.list j :=
  Entries.getD_set (lt_length hi) l [] j

theorem flatten_set_perm {α : Type} (L : List (List α)) {i : ℕ} (hi : i < L.length) (l : List α) :
    (L.set i l).flatten.Perm (l ++ (L.eraseIdx i).flatten) := by
  rw [set_eq_take_append_cons_drop, if_pos hi, eraseIdx_eq_take_drop_succ,
    flatten_append, flatten_append, flatten_cons]
  exact perm_append_comm_assoc _ _ _

theorem list_eq_getElem (hi : i < fl.freeLists.length) : fl.list i = fl.freeLists[i] := by
  rw [list, getD_eq_getElem?_getD, getElem?_eq_getElem hi]
  rfl

theorem elements_perm {fl' : FreeList} (heq : fl'.freeLists = fl.freeLists) (hi : i ≤ kNumLists) :
    ∃ rest, fl.elements.Perm (fl.list i ++ rest) ∧
      ∀ l, (fl'.setList i l).elements.Perm (l ++ rest) := by
  have hi' : i < fl.freeLists.length := lt_length hi
  refine ⟨(fl.freeLists.eraseIdx i).flatten, ?_, fun l => ?_⟩
  · have h := flatten_set_perm fl.freeLists hi' (fl.list i)
    rwa [list_eq_getElem hi', set_getElem_self, ← list_eq_getElem hi'] at h
  · show (fl'.freeLists.set i l).flatten.Perm _
    rw [heq]
    exact flatten_set_perm _ hi' l

theorem mem_elements : e ∈ fl.elements ↔ ∃ i ≤ kNumLists, e ∈ fl.list i := by
  rw [elements, mem_flatten]
  constructor
  · rintro ⟨l, hl, he⟩
    obtain ⟨i, hi, rfl⟩ := getElem_of_mem hl
    exact ⟨i, by have := fl.length_eq; omega, by rwa [list_eq_getElem hi]⟩
  · rintro ⟨i, hi, he⟩
    rw [list_eq_getElem (lt_length hi)] at he
    exact ⟨_, getElem_mem _, he⟩

theorem LastOk.congr {fl' : FreeList} (h : fl.LastOk)
    (hls : fl'.lastFreeSmallSize = fl.lastFreeSmallSize)
    (hl : ∀ i < kNumLists, fl'.list i = [] ↔ fl.list i = []) : fl'.LastOk := by
  rcases h with ⟨h1, h2⟩ | ⟨j, hj, h1, h2, h3⟩
  · exact .inl ⟨hls ▸ h1, fun i hi => (hl i hi).mpr (h2 i hi)⟩
  · refine .inr ⟨j, hj, hls ▸ h1, fun h => h2 ((hl j hj).mp h), fun i hi hi' => ?_⟩
    exact (hl i hi').mpr (h3 i hi hi')

theorem Inv.setList {fl' : FreeList} (h : fl.Inv) (heq : fl'.freeLists = fl.freeLists)
    (hi : i ≤ kNumLists) (hf : ∀ e ∈ l, Fits i e)
    (hb : ∀ j < kNumLists, fl'.freeMap.bit j = if i = j then !l.isEmpty else fl.freeMap.bit j)
    (hls : (fl'.setList i l).LastOk) : (fl'.setList i l).Inv := by
  have hl : ∀ j, (fl'.setList i l).list j = if i = j then l else fl.list j := by
    intro j
    rw [list_setList hi, list, heq, list]
  refine ⟨fun j hj e he => ?_, fun j hj => ?_, hls⟩
  · rw [hl] at he
    split_ifs at he with hij
    · exact hij ▸ hf e he
    · exact h.fits j hj e he
  · rw [hl]
    show fl'.freeMap.bit j = true ↔ _
    rw [hb j hj]
    split_ifs with hij
    · simp
    · exact h.map j hj

/-- For a list that stays non-empty and for the large elements the summaries stay. -/
theorem Inv.setList_same (h : fl.Inv) (hi : i ≤ kNumLists) (hf : ∀ e ∈ l, Fits i e)
    (hne : i = kNumLists ∨ l ≠ [] ∧ fl.list i ≠ []) : (fl.setList i l).Inv := by
  refine h.setList rfl hi hf (fun j hj => ?_) (h.last.congr rfl fun j hj => ?_)
  · split_ifs with hij
    · subst hij
      obtain ⟨hl, hls⟩ := hne.resolve_left hj.ne
      simp [hl, (h.map i hj).mpr hls]
    · rfl
  · rw [list_setList hi]
    split_ifs with hij
    · subst hij
      simp [hne.resolve_left hj.ne]
    · rfl

theorem shiftLeft_alignment (i : ℕ) : i <<< kObjectAlignmentLog2 = i * kObjectAlignment :=
  Nat.shiftLeft_eq i 4

theorem bit_set_map (fl : FreeList) (hi : i < kNumLists) (value : Bool) :
    (fl.freeMap.set i value).bit j = if i = j then value else fl.freeMap.bit j := by
  apply BitSet.bit_set
  rw [fl.freeMap.length_eq]
  omega

theorem bit_of_ge (fl : FreeList) (hj : kNumLists ≤ j) : fl.freeMap.bit j = false := by
  apply BitSet.bit_of_word_zero
  apply BitSet.word_of_le
  rw [fl.freeMap.length_eq]
  simp only [kNumLists] at hj ⊢
  omega

end Lists

theorem inv_reset : reset.Inv := by
  have hl : ∀ i, reset.list i = [] := by
    intro i
    rw [list, reset, getD_eq_getElem?_getD, getElem?_replicate]
    split_ifs <;> rfl
  refine ⟨?_, ?_, .inl ⟨by decide, fun i _ => hl i⟩⟩
  · intro i _ e he
    rw [hl] at he
    cases he
  · intro i _
    rw [hl, show reset.freeMap = BitSet.reset kNumLists from rfl, BitSet.bit_reset]
    simp

/-! ## Enqueue and dequeue -/

section Queue

variable {index : ℕ}

theorem fits_indexForSize (ha : kObjectAlignment ∣ e.size) (h0 : 0 < e.size) :
    indexForSize e.size ≤ kNumLists ∧ Fits (indexForSize e.size) e := by
  obtain ⟨k, hk⟩ := ha
  have hi : e.size >>> kObjectAlignmentLog2 = k := by
    rw [hk, Nat.shiftRight_eq_div_pow]
    simp only [kObjectAlignment, kWordSize, kObjectAlignmentLog2]
    omega
  simp only [indexForSize, hi]
  refine ⟨by split_ifs <;> omega, ⟨k, hk⟩, h0, ?_⟩
  by_cases h : k ≥ kNumLists
  · rw [if_pos h, if_neg (Nat.lt_irrefl _), hk, Nat.mul_comm]
    exact Nat.mul_le_mul_left _ h
  · rw [if_neg h, if_pos (Nat.not_le.mp h), hk, Nat.mul_comm]

theorem enqueueElement_first (h : fl.list index = [] ∧ index ≠ kNumLists) :
    fl.enqueueElement e index = setList
      { fl with
        freeMap := fl.freeMap.set index true
        lastFreeSmallSize := max fl.lastFreeSmallSize (index * kObjectAlignment : ℕ) }
      index (e :: fl.list index) := by
  simp only [enqueueElement, if_pos h, shiftLeft_alignment]

theorem enqueueElement_more (h : ¬ (fl.list index = [] ∧ index ≠ kNumLists)) :
    fl.enqueueElement e index = fl.setList index (e :: fl.list index) := by
  simp only [enqueueElement, if_neg h]

theorem list_above (h : fl.Inv) {i : ℕ} (hi : i < kNumLists)
    (hlt : fl.lastFreeSmallSize < (i * kObjectAlignment : ℕ)) : fl.list i = [] := by
  rcases h.last with ⟨-, h2⟩ | ⟨j, -, h1, -, h3⟩
  · exact h2 i hi
  · simp only [kObjectAlignment, kWordSize] at h1 hlt
    exact h3 i (by omega) hi

/-- The largest small size is that of the list with its first element or the one before. -/
theorem lastOk_first (h : fl.Inv) (hi : index < kNumLists) {fl' : FreeList}
    (hls : ∀ i, fl'.list i = if index = i then [e] else fl.list i)
    (hl : fl'.lastFreeSmallSize = max fl.lastFreeSmallSize (index * kObjectAlignment : ℕ)) :
    fl'.LastOk := by
  have ho : ∀ i, i ≠ index → fl'.list i = fl.list i := by
    intro i hne
    rw [hls, if_neg (Ne.symm hne)]
  by_cases hle : fl.lastFreeSmallSize ≤ (index * kObjectAlignment : ℕ)
  · refine .inr ⟨index, hi, by rw [hl, Int.max_eq_right hle], by simp [hls], fun i hi1 hi2 => ?_⟩
    rw [ho i (by omega)]
    refine list_above h hi2 ?_
    simp only [kObjectAlignment, kWordSize] at hle ⊢
    omega
  rw [Int.max_eq_left (by omega)] at hl
  rcases h.last with ⟨h1, -⟩ | ⟨j, hj, h1, h2, h3⟩
  · omega
  simp only [kObjectAlignment, kWordSize] at h1 hle
  refine .inr ⟨j, hj, hl.trans h1, by rw [ho j (by omega)]; exact h2, fun i hi1 hi2 => ?_⟩
  rw [ho i (by omega)]
  exact h3 i hi1 hi2

/-- **Enqueue** keeps the invariant and adds the element. -/
theorem enqueueElement_spec (h : fl.Inv) (hi : index ≤ kNumLists) (hft : Fits index e) :
    (fl.enqueueElement e index).Inv ∧
      (fl.enqueueElement e index).elements.Perm (e :: fl.elements) := by
  have hf : ∀ x ∈ e :: fl.list index, Fits index x :=
    forall_mem_cons.mpr ⟨hft, h.fits index hi⟩
  have hp : ∀ fl' : FreeList, fl'.freeLists = fl.freeLists →
      (fl'.setList index (e :: fl.list index)).elements.Perm (e :: fl.elements) := by
    intro fl' heq
    obtain ⟨_, h1, h2⟩ := elements_perm heq hi
    exact (h2 _).trans (h1.symm.cons e)
  by_cases hempty : fl.list index = [] ∧ index ≠ kNumLists
  · have hid := lt_of_le_of_ne hi hempty.2
    rw [enqueueElement_first hempty]
    refine ⟨h.setList rfl hi hf (fun j _ => bit_set_map fl hid true) ?_, hp _ rfl⟩
    refine lastOk_first (e := e) h hid (fun i => ?_) rfl
    rw [list_setList hi, hempty.1]
    rfl
  · rw [enqueueElement_more hempty]
    refine ⟨h.setList_same hi hf ?_, hp fl rfl⟩
    by_contra hne
    grind

theorem freeLocked_spec (h : fl.Inv) (addr : ℕ) {size : ℕ} (ha : kObjectAlignment ∣ size)
    (h0 : 0 < size) : (fl.freeLocked addr size).Inv ∧
      (fl.freeLocked addr size).blocks.Perm (⟨addr, size⟩ :: fl.blocks) := by
  have hs := size_asElement addr ha
  obtain ⟨hi, hf⟩ := fits_indexForSize (by rwa [hs]) (by rwa [hs])
  rw [hs] at hi hf
  obtain ⟨hin, hp⟩ := enqueueElement_spec h hi hf
  refine ⟨hin, ?_⟩
  have hb := hp.map block
  rwa [map_cons, block_asElement _ ha] at hb

/-- The state of the summaries after the last element of list `index` is gone. -/
def emptied (fl : FreeList) (index : ℕ) : FreeList :=
  if (index * kObjectAlignment : ℕ) = fl.lastFreeSmallSize then
    { fl with
      freeMap := (fl.freeMap.clearLastAndFindPrevious index).1
      lastFreeSmallSize := (fl.freeMap.clearLastAndFindPrevious index).2 * kObjectAlignment }
  else { fl with freeMap := fl.freeMap.set index false }

theorem dequeueElement_last (hi : index ≠ kNumLists) (hl : fl.list index = [e]) :
    fl.dequeueElement index = some (e, (fl.emptied index).setList index []) := by
  simp only [dequeueElement, hl, if_pos (And.intro trivial hi), emptied, shiftLeft_alignment]

theorem freeLists_emptied : (fl.emptied index).freeLists = fl.freeLists := by
  unfold emptied
  split_ifs <;> rfl

/-- Emptying a small list clears its bit and moves the largest small size down if it was its own. -/
theorem emptied_spec (h : fl.Inv) (hid : index < kNumLists) (hne : fl.list index ≠ []) :
    (∀ j, (fl.emptied index).freeMap.bit j = if index = j then false else fl.freeMap.bit j) ∧
    ((fl.emptied index).setList index []).LastOk := by
  have hl : ∀ j, ((fl.emptied index).setList index []).list j =
      if index = j then [] else fl.list j := by
    intro j
    rw [list_setList hid.le, list, freeLists_emptied]
    rfl
  by_cases hlast : (index * kObjectAlignment : ℕ) = fl.lastFreeSmallSize
  · have hb : ∀ j, index < j → fl.freeMap.bit j = false := by
      intro j hj
      by_cases hj' : j < kNumLists
      · have hab : fl.lastFreeSmallSize < (j * kObjectAlignment : ℕ) := by
          simp only [kObjectAlignment, kWordSize] at hlast ⊢
          omega
        rw [← Bool.not_eq_true, h.map j hj', list_above h hj' hab]
        simp
      · exact bit_of_ge fl (not_lt.mp hj')
    obtain ⟨hc, hp⟩ :=
      fl.freeMap.clearLastAndFindPrevious_spec ((h.map index hid).mpr hne) hb
    -- a list is empty exactly when its bit is not set
    have hm : ∀ j < kNumLists, (fl.freeMap.clearLastAndFindPrevious index).1.bit j = false ↔
        (if index = j then [] else fl.list j) = [] := by
      intro j hj
      rw [hc]
      split_ifs
      · simp
      · rw [← Bool.not_eq_true, h.map j hj, not_not]
    have heq : fl.emptied index =
        { fl with
          freeMap := (fl.freeMap.clearLastAndFindPrevious index).1
          lastFreeSmallSize := (fl.freeMap.clearLastAndFindPrevious index).2 * kObjectAlignment } := by
      rw [emptied, if_pos hlast]
    refine ⟨by rw [heq]; exact hc, ?_⟩
    have hs : ((fl.emptied index).setList index []).lastFreeSmallSize =
        (fl.freeMap.clearLastAndFindPrevious index).2 * kObjectAlignment := by
      rw [heq]
      rfl
    rcases hp with ⟨h1, h2⟩ | ⟨j, h1, h2, h3⟩
    · refine .inl ⟨by rw [hs, h1]; decide, fun i hi => ?_⟩
      rw [hl]
      exact (hm i hi).mp (h2 i)
    have hj : j < kNumLists := by
      by_contra hge
      rw [hc] at h2
      split_ifs at h2
      rw [bit_of_ge fl (not_lt.mp hge)] at h2
      cases h2
    refine .inr ⟨j, hj, by rw [hs, h1]; push_cast; rfl, ?_, fun i hi1 hi2 => ?_⟩
    · rw [hl, ne_eq, ← hm j hj, h2]
      exact Bool.noConfusion
    · rw [hl]
      exact (hm i hi2).mp (h3 i hi1)
  · have heq : fl.emptied index = { fl with freeMap := fl.freeMap.set index false } := by
      rw [emptied, if_neg hlast]
    refine ⟨by rw [heq]; exact fun j => bit_set_map fl hid false, ?_⟩
    have hs : ((fl.emptied index).setList index []).lastFreeSmallSize = fl.lastFreeSmallSize := by
      rw [heq]
      rfl
    rcases h.last with ⟨-, h2⟩ | ⟨j, hj, h1, h2, h3⟩
    · exact absurd (h2 index hid) hne
    have hjn : index ≠ j := by
      rintro rfl
      exact hlast h1.symm
    refine .inr ⟨j, hj, by rw [hs, h1], by rw [hl, if_neg hjn]; exact h2, fun i hi1 hi2 => ?_⟩
    rw [hl]
    split_ifs
    · rfl
    · exact h3 i hi1 hi2

/-- **Dequeue** from a small list whose bit is set. -/
theorem dequeueElement_spec (h : fl.Inv) (hi : index < kNumLists)
    (hb : fl.freeMap.bit index) :
    ∃ e fl', fl.dequeueElement index = some (e, fl') ∧ fl'.Inv ∧
      fl.elements.Perm (e :: fl'.elements) ∧ Fits index e := by
  have hne := (h.map index hi).mp hb
  have hle := hi.le
  obtain ⟨e, l, hl⟩ := exists_cons_of_ne_nil hne
  have hft : Fits index e := h.fits index hle e (by simp [hl])
  have hf : ∀ x ∈ l, Fits index x := fun x hx =>
    h.fits index hle x (by rw [hl]; exact mem_cons_of_mem _ hx)
  have hp : ∀ fl' : FreeList, fl'.freeLists = fl.freeLists →
      fl.elements.Perm (e :: (fl'.setList index l).elements) := by
    intro fl' heq
    obtain ⟨_, h1, h2⟩ := elements_perm heq hle
    rw [hl] at h1
    exact h1.trans ((h2 l).symm.cons e)
  cases l with
  | nil =>
    obtain ⟨hc, hls⟩ := emptied_spec h hi hne
    exact ⟨e, _, dequeueElement_last hi.ne hl,
      h.setList freeLists_emptied hle hf (fun j _ => hc j) hls, hp _ freeLists_emptied, hft⟩
  | cons x l =>
    exact ⟨e, _, by simp [dequeueElement, hl], h.setList_same hle hf (.inr ⟨cons_ne_nil x l, hne⟩),
      hp fl rfl, hft⟩

end Queue

/-! ## Allocation -/

section Allocate

variable {fl' : FreeList} {size addr : ℕ}

/-- `fl'` is `fl` with the block handed out. -/
def HandsOut (fl fl' : FreeList) (b : Block) : Prop :=
  ∀ (handed : List Block) (G : Set ℕ), Tiles (fl.blocks ++ handed) G →
    Tiles (fl'.blocks ++ (b :: handed)) G

theorem HandsOut.of_perm (h : fl.elements.Perm (e :: fl'.elements)) : HandsOut fl fl' e.block := by
  intro handed G ht
  refine ht.perm ?_
  have h1 : fl.blocks.Perm (e.block :: fl'.blocks) := h.map block
  exact (h1.append_right handed).trans perm_middle.symm

/-- **Split**: the block is cut, and the remainder goes back to the free list. -/
theorem splitElementAfterAndEnqueue_spec (h : fl.Inv) (hs : kObjectAlignment ∣ size)
    (he : kObjectAlignment ∣ e.size) (hle : size ≤ e.size) :
    (fl.splitElementAfterAndEnqueue e size).Inv ∧
    ∀ (bs : List Block) (G : Set ℕ), Tiles (fl.blocks ++ (e.block :: bs)) G →
      Tiles ((fl.splitElementAfterAndEnqueue e size).blocks ++ (⟨e.addr, size⟩ :: bs)) G := by
  simp only [splitElementAfterAndEnqueue]
  by_cases h0 : e.size - size = 0
  · rw [if_pos h0]
    refine ⟨h, fun bs G ht => ?_⟩
    have hb : e.block = ⟨e.addr, size⟩ := by
      rw [block, show e.size = size by omega]
    rwa [hb] at ht
  rw [if_neg h0]
  obtain ⟨hi, hp⟩ := freeLocked_spec h (e.addr + size) (Nat.dvd_sub he hs) (by omega)
  refine ⟨hi, fun bs G ht => ?_⟩
  have hc : Tiles (⟨e.addr, size⟩ :: ⟨e.addr + size, e.size - size⟩ :: (fl.blocks ++ bs)) G := by
    apply Tiles.split
    rw [show size + (e.size - size) = e.size by omega]
    exact ht.perm perm_middle
  refine hc.perm ?_
  exact (List.Perm.cons _ (hp.append_right bs).symm).trans perm_middle.symm

theorem indexForSize_le (size : ℕ) : indexForSize size ≤ kNumLists := by
  simp only [indexForSize]
  split_ifs <;> omega

theorem eq_of_indexForSize (ha : kObjectAlignment ∣ size) (h : indexForSize size < kNumLists) :
    size = indexForSize size * kObjectAlignment := by
  obtain ⟨m, rfl⟩ := ha
  simp only [indexForSize, kObjectAlignment, kWordSize, kObjectAlignmentLog2,
    Nat.shiftRight_eq_div_pow, kNumLists] at h ⊢
  split_ifs at h ⊢ <;> omega

theorem indexForSize_le_of_le (ha : kObjectAlignment ∣ size) {i : ℕ}
    (h : size ≤ i * kObjectAlignment) : indexForSize size ≤ i := by
  obtain ⟨m, rfl⟩ := ha
  simp only [indexForSize, kObjectAlignment, kWordSize, kObjectAlignmentLog2,
    Nat.shiftRight_eq_div_pow, kNumLists] at h ⊢
  split_ifs <;> omega

/-- Taking an element off the lists and splitting it hands out its beginning. -/
theorem handsOut_split {fl₁ : FreeList} (h : fl₁.Inv) (hp : fl.elements.Perm (e :: fl₁.elements))
    (ha : kObjectAlignment ∣ size) (he : kObjectAlignment ∣ e.size) (hle : size ≤ e.size) :
    (fl₁.splitElementAfterAndEnqueue e size).Inv ∧
      HandsOut fl (fl₁.splitElementAfterAndEnqueue e size) ⟨e.addr, size⟩ := by
  obtain ⟨hi, hs⟩ := splitElementAfterAndEnqueue_spec h ha he hle
  exact ⟨hi, fun handed G ht => hs handed G (HandsOut.of_perm hp handed G ht)⟩

theorem next_small (fl : FreeList) {i : ℕ} (h : fl.freeMap.next i ≠ -1) :
    ∃ j < kNumLists, fl.freeMap.next i = j ∧ i ≤ j ∧ fl.freeMap.bit j := by
  rcases fl.freeMap.next_spec i with ⟨hn, -⟩ | ⟨j, hj, hge, hb, -⟩
  · exact absurd hn h
  · refine ⟨j, ?_, hj, hge, hb⟩
    by_contra hcon
    rw [bit_of_ge fl (not_lt.mp hcon)] at hb
    cases hb

/-- An allocation hands out a block, or there is a reason why it fails. -/
def Serves (fl : FreeList) (size : ℕ) (P : Prop) : Option (ℕ × FreeList) → Prop
  | some (addr, fl') => fl'.Inv ∧ HandsOut fl fl' ⟨addr, size⟩
  | none => P

theorem Serves.of_none {P : Prop} {r : Option (ℕ × FreeList)} (h : Serves fl size P r)
    (hr : r = none) : P := by
  subst hr
  exact h

theorem tryAllocateFixed_spec (h : fl.Inv) (ha : kObjectAlignment ∣ size) :
    Serves fl size (∀ i < kNumLists, size ≤ i * kObjectAlignment → fl.list i = [])
      (fl.tryAllocateFixed size) := by
  simp only [tryAllocateFixed, BitSet.test_eq_bit]
  split_ifs with h1 h2 h3
  · -- an element of this very size
    have hlt := lt_of_le_of_ne (indexForSize_le size) h1.1
    obtain ⟨e, fl1, hd, hin, hp, hf⟩ := dequeueElement_spec h hlt h1.2
    have hes := hf.2.2
    rw [if_pos hlt, ← eq_of_indexForSize ha hlt] at hes
    rw [hd]
    refine ⟨hin, ?_⟩
    rw [show (⟨e.addr, size⟩ : Block) = e.block by rw [block, hes]]
    exact HandsOut.of_perm hp
  · -- the beginning of a larger small element
    obtain ⟨j, hjl, hj, hge, hb⟩ := next_small fl h3
    obtain ⟨e, fl1, hd, hin, hp, hf⟩ := dequeueElement_spec h hjl hb
    rw [hj, Int.toNat_natCast, hd]
    refine handsOut_split hin hp ha hf.1 ?_
    have hes := hf.2.2
    rw [if_pos hjl] at hes
    rw [hes, eq_of_indexForSize ha (by omega)]
    exact Nat.mul_le_mul_right _ (by omega)
  all_goals
    intro i hi hsi
    have hid := indexForSize_le_of_le ha hsi
    by_contra hne
    have hb := (h.map i hi).mpr hne
    rcases Nat.eq_or_lt_of_le hid with heq | hlt
    · exact h1 ⟨by omega, heq ▸ hb⟩
  · -- no bit above the index
    rcases fl.freeMap.next_spec (indexForSize size + 1) with ⟨-, hn⟩ | ⟨j, hj, -⟩
    · rw [hn i hlt] at hb
      cases hb
    · rw [hj] at h3
      omega
  · omega

theorem unlinkFirst_some {l l' : List FreeListElement} (hu : unlinkFirst size l = some (e, l')) :
    l.Perm (e :: l') ∧ size ≤ e.size := by
  induction l generalizing l' with
  | nil => cases hu
  | cons x l ih =>
    rw [unlinkFirst] at hu
    split_ifs at hu with h1
    · obtain ⟨rfl, rfl⟩ := Prod.mk.inj (some.inj hu)
      exact ⟨.refl _, h1⟩
    · obtain ⟨⟨y, _⟩, h2, h3⟩ := map_eq_some_iff.mp hu
      obtain ⟨rfl, rfl⟩ := Prod.mk.inj h3
      obtain ⟨hp, hs⟩ := ih h2
      exact ⟨(hp.cons x).trans (List.Perm.swap _ _ _), hs⟩

theorem unlinkFirst_none {l : List FreeListElement} (hu : unlinkFirst size l = none) :
    ∀ e ∈ l, e.size < size := by
  induction l with
  | nil => intro e he; cases he
  | cons x l ih =>
    rw [unlinkFirst] at hu
    split_ifs at hu with h1
    rw [map_eq_none_iff] at hu
    exact forall_mem_cons.mpr ⟨not_le.mp h1, ih hu⟩

theorem unlinkLarge_spec (h : fl.Inv) {l : List FreeListElement}
    (hu : unlinkFirst size (fl.list kNumLists) = some (e, l)) :
    (fl.setList kNumLists l).Inv ∧ fl.elements.Perm (e :: (fl.setList kNumLists l).elements) ∧
      Fits kNumLists e ∧ size ≤ e.size := by
  obtain ⟨hp, hs⟩ := unlinkFirst_some hu
  have hf : ∀ x ∈ e :: l, Fits kNumLists x := fun x hx =>
    h.fits _ le_rfl x (hp.mem_iff.mpr hx)
  obtain ⟨rest, h1, h2⟩ := elements_perm (Eq.refl fl.freeLists) (le_refl kNumLists)
  exact ⟨h.setList_same le_rfl (fun x hx => hf x (mem_cons_of_mem _ hx)) (.inl rfl),
    h1.trans ((hp.append_right rest).trans ((h2 l).symm.cons e)), hf e mem_cons_self, hs⟩

section

variable (h : fl.Inv) (ha : kObjectAlignment ∣ size)

include h ha

theorem tryAllocateLocked_spec :
    Serves fl size (∀ e ∈ fl.elements, e.size < size) (fl.tryAllocateLocked size) := by
  have hfx := tryAllocateFixed_spec h ha
  unfold tryAllocateLocked
  cases hf : fl.tryAllocateFixed size with
  | some r =>
    rw [hf] at hfx
    exact hfx
  | none =>
    cases hu : unlinkFirst size (fl.list kNumLists) with
    | some r =>
      obtain ⟨hin, hp, hft, hle⟩ := unlinkLarge_spec h hu
      exact handsOut_split hin hp ha hft.1 hle
    | none =>
      intro e he
      obtain ⟨i, hi, he⟩ := mem_elements.mp he
      rcases Nat.eq_or_lt_of_le hi with rfl | hlt
      · exact unlinkFirst_none hu e he
      by_contra hcon
      have hes := (h.fits i hi e he).2.2
      rw [if_pos hlt] at hes
      rw [hfx.of_none hf i hlt (by omega)] at he
      cases he

theorem tryAllocateSmallLocked_spec :
    Serves fl size (∀ i < kNumLists, size ≤ i * kObjectAlignment → fl.list i = [])
      (fl.tryAllocateSmallLocked size) := by
  unfold tryAllocateSmallLocked
  split_ifs with h1
  · intro i hi hsi
    exact list_above h hi (by omega)
  · exact tryAllocateFixed_spec h ha

end

end Allocate

/-! ## Runs -/

/-- A free list with the memory it was given and the blocks it has handed out. -/
structure State where
  fl : FreeList
  given : List Block
  handed : List Block

inductive Call
  | free (addr size : ℕ)
  | tryAllocate (size : ℕ)
  | tryAllocateSmall (size : ℕ)
  | tryAllocateLarge (minimumSize : ℕ)
deriving DecidableEq, Repr

/-- What the callers of the free list respect: sizes are aligned, and a block being freed overlaps
no free element and no part of a block that stays handed out.  It may be new memory, a block handed
out earlier, or a run of such blocks. -/
def Call.Allowed (s : State) : Call → Prop
  | free addr size => kObjectAlignment ∣ size ∧ 0 < size ∧
      (∀ b ∈ s.fl.blocks, Block.Disjoint ⟨addr, size⟩ b) ∧
      ∀ b ∈ s.handed, b.Inside ⟨addr, size⟩ ∨ Block.Disjoint ⟨addr, size⟩ b
  | tryAllocate size => kObjectAlignment ∣ size ∧ 0 < size
  | tryAllocateSmall size => kObjectAlignment ∣ size ∧ 0 < size
  | tryAllocateLarge _ => True

instance (s : State) : (c : Call) → Decidable (c.Allowed s)
  | .free _ _ => inferInstanceAs (Decidable (_ ∧ _ ∧ (∀ b ∈ _, _) ∧ ∀ b ∈ _, _ ∨ _))
  | .tryAllocate _ => inferInstanceAs (Decidable (_ ∧ _))
  | .tryAllocateSmall _ => inferInstanceAs (Decidable (_ ∧ _))
  | .tryAllocateLarge _ => inferInstanceAs (Decidable True)

/-- Records the outcome of an allocation of `size` bytes. -/
def State.allocated (s : State) (size : ℕ) : Option (ℕ × FreeList) → State
  | some (addr, fl) => { s with fl := fl, handed := ⟨addr, size⟩ :: s.handed }
  | none => s

def State.step (s : State) : Call → State
  | .free addr size =>
    { fl := s.fl.freeLocked addr size
      given := ⟨addr, size⟩ :: s.given
      handed := s.handed.filter (fun b => Block.Disjoint ⟨addr, size⟩ b) }
  | .tryAllocate size => s.allocated size (s.fl.tryAllocateLocked size)
  | .tryAllocateSmall size => s.allocated size (s.fl.tryAllocateSmallLocked size)
  | .tryAllocateLarge minimumSize =>
    match s.fl.tryAllocateLargeLocked minimumSize with
    | some (e, fl) => { s with fl := fl, handed := e.block :: s.handed }
    | none => s

/-- The states after a sequence of calls on a fresh free list. -/
inductive Reachable : State → Prop
  | reset : Reachable ⟨reset, [], []⟩
  | step {s : State} (c : Call) : Reachable s → c.Allowed s → Reachable (s.step c)

def memory (bs : List Block) : Set ℕ := {a | ∃ b ∈ bs, a ∈ b}

/-- The invariant of a state: that of the free list, and that free elements and handed-out blocks
tile the memory given. -/
structure State.Ok (s : State) : Prop where
  inv : s.fl.Inv
  tiles : Tiles (s.fl.blocks ++ s.handed) (memory s.given)

theorem State.Ok.allocated {s : State} (h : s.Ok) {size : ℕ} {P : Prop}
    {r : Option (ℕ × FreeList)} (hr : Serves s.fl size P r) : (s.allocated size r).Ok := by
  cases r with
  | none => exact h
  | some p => exact ⟨hr.1, hr.2 s.handed _ h.tiles⟩

/-- **The step**: every call keeps the invariant. -/
theorem step_ok {s : State} (h : s.Ok) {c : Call} (hc : c.Allowed s) : (s.step c).Ok := by
  cases c with
  | free addr size =>
    obtain ⟨ha, h0, hf, hh⟩ := hc
    obtain ⟨hi, hp⟩ := freeLocked_spec h.inv addr ha h0
    refine ⟨hi, ?_⟩
    have ht := Tiles.give h.tiles hf hh
    have hm : memory (⟨addr, size⟩ :: s.given) =
        memory s.given ∪ {a | a ∈ (⟨addr, size⟩ : Block)} := by
      ext a
      simp only [memory, mem_cons, exists_eq_or_imp, Set.mem_ofPred_eq, Set.mem_union]
      exact or_comm
    show Tiles (_ ++ _) (memory (⟨addr, size⟩ :: s.given))
    rw [hm]
    exact ht.perm (hp.symm.append_right _)
  | tryAllocate size => exact h.allocated (tryAllocateLocked_spec h.inv hc.1)
  | tryAllocateSmall size => exact h.allocated (tryAllocateSmallLocked_spec h.inv hc.1)
  | tryAllocateLarge minimumSize =>
    simp only [State.step]
    cases hl : s.fl.tryAllocateLargeLocked minimumSize with
    | none => exact h
    | some p =>
      obtain ⟨⟨e, l⟩, hu, rfl⟩ := map_eq_some_iff.mp hl
      obtain ⟨hi, hp, -, -⟩ := unlinkLarge_spec h.inv hu
      exact ⟨hi, HandsOut.of_perm hp s.handed _ h.tiles⟩

/-- **The run.** -/
theorem reachable_ok {s : State} (h : Reachable s) : s.Ok := by
  induction h with
  | reset =>
    refine ⟨inv_reset, ?_⟩
    have hb : reset.blocks = [] := by decide
    have hm : memory [] = ∅ := by simp [memory]
    rw [hb, append_nil, hm]
    exact Tiles.nil
  | step c _ hc ih => exact step_ok ih hc

/-- **The free list.**  After any sequence of calls: (a) the bit set marks the non-empty small lists,
and every list holds elements of its sizes; (b) `last_free_small_size_` is the largest non-empty
small size, or negative; (c) free elements and handed-out blocks are disjoint and make up the memory
given; (d) an allocation fails only if nothing large enough is free. -/
theorem freeList_invariant {s : State} (h : Reachable s) :
    ((∀ i < kNumLists, s.fl.freeMap.test i = true ↔ s.fl.list i ≠ []) ∧
      (∀ i < kNumLists, ∀ e ∈ s.fl.list i, e.size = i * kObjectAlignment) ∧
      ∀ e ∈ s.fl.list kNumLists, kNumLists * kObjectAlignment ≤ e.size) ∧
    s.fl.LastOk ∧
    ((s.fl.blocks ++ s.handed).Pairwise Block.Disjoint ∧
      ∀ a, a ∈ memory s.given ↔ ∃ b ∈ s.fl.blocks ++ s.handed, a ∈ b) ∧
    (∀ size, kObjectAlignment ∣ size → 0 < size →
      (s.fl.tryAllocateSmallLocked size = none →
        ∀ i < kNumLists, size ≤ i * kObjectAlignment → s.fl.list i = []) ∧
      (s.fl.tryAllocateLocked size = none → ∀ e ∈ s.fl.elements, e.size < size)) := by
  obtain ⟨hin, ht⟩ := reachable_ok h
  refine ⟨⟨?_, ?_, ?_⟩, hin.last, ⟨ht.pairwise, ht.cover⟩, ?_⟩
  · intro i hi
    rw [BitSet.test_eq_bit]
    exact hin.map i hi
  · intro i hi e he
    have := (hin.fits i hi.le e he).2.2
    rwa [if_pos hi] at this
  · intro e he
    have := (hin.fits kNumLists (le_rfl) e he).2.2
    rwa [if_neg (lt_irrefl _)] at this
  · intro size ha _
    exact ⟨(tryAllocateSmallLocked_spec hin ha).of_none, (tryAllocateLocked_spec hin ha).of_none⟩

theorem freeList_invariant_split :
    ((((⟨reset, [], []⟩ : State).step (.free 4096 64)).step (.tryAllocate 16)).fl.blocks ++
      (((⟨reset, [], []⟩ : State).step (.free 4096 64)).step (.tryAllocate 16)).handed).Pairwise
        Block.Disjoint ∧
    (((⟨reset, [], []⟩ : State).step (.free 4096 64)).step (.tryAllocate 16)).handed =
      [⟨4096, 16⟩] :=
  ⟨(freeList_invariant (.step (.tryAllocate 16) (.step (.free 4096 64) .reset (by decide))
    (by decide))).2.2.1.1, by decide +kernel⟩

end FreeList

end DartSdk.Vm
