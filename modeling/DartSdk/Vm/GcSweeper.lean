import DartSdk.Lib.Runs
import DartSdk.Vm.FreeList

/-!
# Vm.GcSweeper — sweeping a page, after `vm/gc_sweeper.cc`

`GCSweeper::SweepPage` walks the objects of a page.  It clears the mark of a marked object; a stretch
of unmarked objects is overwritten (in executable pages and in debug builds) and handed to the free
list as one block, unless it is the whole page.

* `Layout`: a page filled with consecutive objects.
* `findFreeEnd_eq`, `sweepFrom_spec`: the loops, by induction along the layout.
* `sweepPage_exact`: what a sweep does to every page and every set of marks.
-/

namespace DartSdk.Vm.GcSweeper

open DartSdk.Runs DartSdk.Tiling List Option Function

def kZapByte : BitVec 8 := 0xf3

structure HeapPage where
  objectStart : ℕ
  objectEnd : ℕ
  executable : Bool
deriving DecidableEq, Repr

/-- The objects by the address of their header, the free list, and the blocks overwritten so far. -/
structure Sweep where
  heap : ℕ → Option RawObject
  freelist : FreeList
  zapped : List (Block × BitVec 8)

namespace Sweep

/-- `memset`: no header survives in the block. -/
def memset (s : Sweep) (b : Block) (byte : BitVec 8) : Sweep :=
  { s with
    heap := fun a => if a ∈ b then none else s.heap a
    zapped := s.zapped ++ [(b, byte)] }

/-- Hands the block to the free list, which writes the header of an element at its start. -/
def free (s : Sweep) (locked : Bool) (b : Block) : Sweep :=
  let element := FreeListElement.asElement b.addr b.size
  { s with
    heap := Function.update s.heap b.addr (some ⟨element.tags, element.size⟩)
    freelist := if locked then s.freelist.freeLocked b.addr b.size
      else s.freelist.free b.addr b.size }

def clearMarkBit (s : Sweep) (addr : ℕ) (o : RawObject) : Sweep :=
  { s with heap := Function.update s.heap addr (some o.clearMarkBit) }

end Sweep

/-- The inner loop of `SweepPage`.  An object of size zero would not end it. -/
def findFreeEnd (heap : ℕ → Option RawObject) (endAddr freeEnd : ℕ) : Option ℕ :=
  if freeEnd < endAddr then
    match heap freeEnd with
    | none => none
    | some next =>
      if next.isMarked then some freeEnd
      else if 0 < next.size then findFreeEnd heap endAddr (freeEnd + next.size)
      else none
  else some freeEnd
termination_by endAddr - freeEnd

section

variable (page : HeapPage) (debug locked : Bool)

/-- The treatment of the unmarked block from `current` to `freeEnd`. -/
def sweepFree (s : Sweep) (current freeEnd : ℕ) : Sweep :=
  let b : Block := ⟨current, freeEnd - current⟩
  let s :=
    if page.executable then s.memset b 0xcc
    else if debug then s.memset b kZapByte
    else s
  if current ≠ page.objectStart ∨ freeEnd ≠ page.objectEnd then s.free locked b else s

/-- The body of the outer loop of `SweepPage`: the size to advance by, and the new state. -/
def sweepObject (current : ℕ) (inUse : Bool) (s : Sweep) : Option (ℕ × Bool × Sweep) :=
  match s.heap current with
  | none => none
  | some obj =>
    if obj.isMarked then some (obj.clearMarkBit.size, true, s.clearMarkBit current obj)
    else
      (findFreeEnd s.heap page.objectEnd (current + obj.size)).map (fun freeEnd =>
        (freeEnd - current, inUse, sweepFree page debug locked s current freeEnd))

/-- The outer loop of `SweepPage`; it would not end if it did not advance. -/
def sweepFrom (current : ℕ) (inUse : Bool) (s : Sweep) : Option (Bool × Sweep) :=
  if current < page.objectEnd then
    match sweepObject page debug locked current inUse s with
    | none => none
    | some (objSize, inUse, s) => if 0 < objSize then sweepFrom (current + objSize) inUse s else none
  else some (inUse, s)
termination_by page.objectEnd - current

/-- `GCSweeper::SweepPage`: whether the page is still in use, and the heap afterwards. -/
def sweepPage (s : Sweep) : Option (Bool × Sweep) :=
  sweepFrom page debug locked page.objectStart false s

end

abbrev Obj := ℕ × RawObject

/-- Consecutive objects fill the addresses from `a` to `e`. -/
inductive Layout (heap : ℕ → Option RawObject) : ℕ → ℕ → List Obj → Prop
  | nil {a : ℕ} : Layout heap a a []
  | cons {a e : ℕ} {o : RawObject} {os : List Obj} : heap a = some o → kObjectAlignment ∣ o.size →
      0 < o.size → Layout heap (a + o.size) e os → Layout heap a e ((a, o) :: os)

def Obj.unmarked (o : Obj) : Bool := !o.2.isMarked

open Obj

def Obj.block (o : Obj) : Block := ⟨o.1, o.2.size⟩

def totalSize (os : List Obj) : ℕ := (os.map (fun o => o.2.size)).sum

/-- The block of a run of consecutive objects. -/
def runBlock (r : List Obj) : Block := ⟨(r.head?.map Prod.fst).getD 0, totalSize r⟩

/-- The blocks of the maximal runs of unmarked objects, in the order of their addresses. -/
def freeBlocks (os : List Obj) : List Block := (runs unmarked os).map runBlock

/-- The size of the run that the unmarked object `o` begins. -/
def runSize (o : RawObject) (os : List Obj) : ℕ := o.size + totalSize (os.takeWhile unmarked)

variable {heap : ℕ → Option RawObject} {a e : ℕ} {os : List Obj}

section LayoutLemmas

variable {he' : ℕ → Option RawObject}

theorem Layout.cons_inv {x : Obj} (h : Layout heap a e (x :: os)) :
    ∃ o, x = (a, o) ∧ 0 < o.size ∧ Layout heap (a + o.size) e os := by
  cases h with
  | cons _ _ h3 hl => exact ⟨_, rfl, h3, hl⟩

theorem Layout.total (h : Layout heap a e os) : a + totalSize os = e := by
  induction h with
  | nil => rfl
  | cons _ _ _ _ ih =>
    simp only [totalSize, map_cons, sum_cons] at ih ⊢
    omega

theorem Layout.bounds (h : Layout heap a e os) : ∀ o ∈ os, a ≤ o.1 ∧ o.1 + o.2.size ≤ e := by
  intro o ho
  induction h with
  | nil => cases ho
  | cons _ _ _ hl ih =>
    rcases mem_cons.mp ho with rfl | ho
    · have := hl.total
      exact ⟨le_rfl, by simp only; omega⟩
    · have := ih ho
      omega

theorem Layout.congr (h : Layout heap a e os) (heq : ∀ x, a ≤ x → he' x = heap x) :
    Layout he' a e os := by
  induction h with
  | nil => exact .nil
  | cons h1 h2 h3 _ ih =>
    exact .cons (by rw [heq _ (le_rfl), h1]) h2 h3 (ih (fun x hx => heq x (by omega)))

theorem Layout.drop (h : Layout heap a e os) {r rest : List Obj} (heq : os = r ++ rest) :
    Layout heap (a + totalSize r) e rest := by
  induction r generalizing a os with
  | nil =>
    subst heq
    exact h
  | cons o r ih =>
    subst heq
    cases h with
    | cons _ _ _ hl =>
      have := ih hl rfl
      rwa [add_assoc] at this

theorem Layout.run_split {o : RawObject} (h : Layout heap a e ((a, o) :: os)) :
    Layout heap (a + runSize o os) e (os.dropWhile unmarked) :=
  h.drop (r := (a, o) :: os.takeWhile unmarked)
    (by rw [cons_append, takeWhile_append_dropWhile])

theorem Layout.runSize_pos {o : RawObject} (h : Layout heap a e ((a, o) :: os)) : 0 < runSize o os := by
  cases h with
  | cons _ _ h0 _ => exact Nat.add_pos_left h0 _

theorem findFreeEnd_eq (h : Layout heap a e os) :
    findFreeEnd heap e a = some (a + totalSize (os.takeWhile unmarked)) := by
  induction h with
  | @nil a => rw [findFreeEnd, if_neg (lt_irrefl a)]; rfl
  | @cons a e o os h1 _ h3 hl ih =>
    have := hl.total
    rw [findFreeEnd, if_pos (by omega), h1]
    by_cases hm : o.isMarked
    · simp [hm, unmarked, totalSize]
    · have hu : unmarked (a, o) := by simpa [unmarked] using hm
      simp only [hm, Bool.false_eq_true, if_false, if_pos h3, ih, takeWhile_cons, hu, if_true,
        totalSize, map_cons, sum_cons, add_assoc]

end LayoutLemmas

/-! ## The loop -/

section Loop

variable {page : HeapPage} {debug locked : Bool} {s : Sweep} {current : ℕ} {inUse : Bool}
  {o : RawObject}

/-- The blocks that are overwritten, each with its byte. -/
def zaps (page : HeapPage) (debug : Bool) (bs : List Block) : List (Block × BitVec 8) :=
  if page.executable then bs.map (fun b => (b, 0xcc))
  else if debug then bs.map (fun b => (b, kZapByte))
  else []

theorem zaps_cons (b : Block) (bs : List Block) :
    zaps page debug (b :: bs) = zaps page debug [b] ++ zaps page debug bs := by
  unfold zaps
  split_ifs <;> rfl

theorem freeBlocks_nil : freeBlocks [] = [] := by
  rw [freeBlocks, runs]
  rfl

theorem freeBlocks_marked (h : o.isMarked) (a : ℕ) :
    freeBlocks ((a, o) :: os) = freeBlocks os := by
  rw [freeBlocks, runs_cons_neg (by simp [unmarked, h])]
  rfl

theorem freeBlocks_unmarked (h : o.isMarked = false) (a : ℕ) :
    freeBlocks ((a, o) :: os) =
      ⟨a, runSize o os⟩ :: freeBlocks (os.dropWhile unmarked) := by
  rw [freeBlocks, runs_cons_pos (by simp [unmarked, h])]
  rfl

section

variable (h : Layout s.heap current page.objectEnd ((current, o) :: os))

include h

theorem sweepFrom_marked (hm : o.isMarked) :
    sweepFrom page debug locked current inUse s =
      sweepFrom page debug locked (current + o.size) true (s.clearMarkBit current o) := by
  cases h with
  | cons h1 _ h3 hl =>
    have := hl.total
    have ho : sweepObject page debug locked current inUse s =
        some (o.size, true, s.clearMarkBit current o) := by
      simp only [sweepObject, h1, hm, if_true, RawObject.size_clearMarkBit]
    rw [sweepFrom, if_pos (by omega), ho]
    simp only [if_pos h3]

theorem sweepFrom_unmarked (hm : o.isMarked = false) :
    sweepFrom page debug locked current inUse s =
      sweepFrom page debug locked (current + runSize o os) inUse
        (sweepFree page debug locked s current (current + runSize o os)) := by
  have hp := h.runSize_pos
  cases h with
  | cons h1 _ h3 hl =>
    have := hl.total
    have ho : sweepObject page debug locked current inUse s =
        some (runSize o os, inUse, sweepFree page debug locked s current (current + runSize o os)) := by
      simp only [sweepObject, h1, hm, Bool.false_eq_true, if_false, findFreeEnd_eq hl, map_some,
        add_assoc, Nat.add_sub_cancel_left, runSize]
    rw [sweepFrom, if_pos (by omega), ho]
    simp only [if_pos hp]

end

theorem sweepFree_heap {freeEnd a : ℕ} (hlt : current < freeEnd) (ha : a < current ∨ freeEnd ≤ a) :
    (sweepFree page debug locked s current freeEnd).heap a = s.heap a := by
  have hm : a ∉ (⟨current, freeEnd - current⟩ : Block) := by
    simp only [Block.mem_iff]
    omega
  have hne : a ≠ current := by omega
  simp only [sweepFree]
  split_ifs <;> simp [Sweep.free, Sweep.memset, hm, update_of_ne hne]

theorem sweepFree_zapped (freeEnd : ℕ) :
    (sweepFree page debug locked s current freeEnd).zapped =
      s.zapped ++ zaps page debug [⟨current, freeEnd - current⟩] := by
  unfold zaps
  simp only [sweepFree]
  split_ifs <;> simp [Sweep.free, Sweep.memset]

theorem sweepFree_freelist (freeEnd : ℕ) :
    (sweepFree page debug locked s current freeEnd).freelist =
      if current ≠ page.objectStart ∨ freeEnd ≠ page.objectEnd then
        s.freelist.freeLocked current (freeEnd - current)
      else s.freelist := by
  simp only [sweepFree]
  split_ifs <;> simp [Sweep.free, Sweep.memset, FreeList.free]

/-- Hands blocks to the free list, one after another. -/
def freeAll (fl : FreeList) (bs : List Block) : FreeList :=
  bs.foldl (fun fl b => fl.freeLocked b.addr b.size) fl

/-- What sweeping the objects `os`, the first one at `current`, has done: the blocks `handed` went to
the free list, the marked objects have lost their marks, and nothing before them has changed. -/
structure Swept (page : HeapPage) (debug : Bool) (s s' : Sweep) (current : ℕ) (os : List Obj)
    (handed : List Block) : Prop where
  freelist : s'.freelist = freeAll s.freelist handed
  zapped : s'.zapped = s.zapped ++ zaps page debug (freeBlocks os)
  before : ∀ a < current, s'.heap a = s.heap a
  marked : ∀ o ∈ os, o.2.isMarked = true → s'.heap o.1 = some o.2.clearMarkBit

theorem Swept.nil : Swept page debug s s current [] [] := by
  refine ⟨rfl, ?_, fun a _ => rfl, nofun⟩
  rw [freeBlocks_nil, zaps]
  split_ifs <;> simp

theorem Swept.cons_marked {s' : Sweep} {handed : List Block} (hm : o.isMarked)
    (h0 : 0 < o.size) (h : Swept page debug (s.clearMarkBit current o) s' (current + o.size) os handed) :
    Swept page debug s s' current ((current, o) :: os) handed := by
  refine ⟨h.freelist, by rw [freeBlocks_marked hm]; exact h.zapped, fun a ha => ?_, fun x hx hxm => ?_⟩
  · rw [h.before a (by omega)]
    exact update_of_ne (by omega) _ _
  · rcases mem_cons.mp hx with rfl | hx
    · rw [h.before current (by omega)]
      exact update_self _ _ _
    · exact h.marked x hx hxm

theorem mem_dropWhile_of_marked {x : Obj} (hm : o.isMarked = false) (hx : x ∈ (a, o) :: os)
    (hxm : x.2.isMarked) : x ∈ os.dropWhile unmarked := by
  rcases mem_cons.mp hx with rfl | hx
  · rw [hm] at hxm
    cases hxm
  · rw [← takeWhile_append_dropWhile (p := unmarked) (l := os), mem_append] at hx
    refine hx.resolve_left fun hx => ?_
    have := mem_takeWhile_imp hx
    simp [unmarked, hxm] at this

theorem Swept.cons_unmarked {s' : Sweep} {handed : List Block} (hm : o.isMarked = false)
    (h0 : 0 < runSize o os)
    (hs : current ≠ page.objectStart ∨ current + runSize o os ≠ page.objectEnd)
    (h : Swept page debug (sweepFree page debug locked s current (current + runSize o os)) s'
      (current + runSize o os) (os.dropWhile unmarked) handed) :
    Swept page debug s s' current ((current, o) :: os) (⟨current, runSize o os⟩ :: handed) := by
  refine ⟨?_, ?_, fun a ha => ?_, fun x hx hxm => ?_⟩
  · rw [h.freelist, sweepFree_freelist, if_pos hs, Nat.add_sub_cancel_left]
    rfl
  · rw [h.zapped, sweepFree_zapped, freeBlocks_unmarked hm, zaps_cons _ (freeBlocks _),
      Nat.add_sub_cancel_left, append_assoc]
  · rw [h.before a (by omega), sweepFree_heap (by omega) (.inl ha)]
  · exact h.marked x (mem_dropWhile_of_marked hm hx hxm) hxm

theorem any_dropWhile_unmarked (os : List Obj) :
    (os.dropWhile unmarked).any (·.2.isMarked) = os.any (·.2.isMarked) := by
  conv_rhs => rw [← takeWhile_append_dropWhile (p := unmarked) (l := os), any_append]
  have h : (os.takeWhile unmarked).any (·.2.isMarked) = false := by
    rw [List.any_eq_false]
    intro x hx
    have := mem_takeWhile_imp hx
    simpa [unmarked] using this
  rw [h, Bool.false_or]

theorem Layout.behind_run (debug locked : Bool) (h : Layout s.heap current page.objectEnd ((current, o) :: os)) :
    Layout (sweepFree page debug locked s current (current + runSize o os)).heap
      (current + runSize o os) page.objectEnd (os.dropWhile unmarked) :=
  h.run_split.congr (fun _ hx => sweepFree_heap (Nat.lt_add_of_pos_right h.runSize_pos) (.inr hx))

/-- **The loop**, past the start of the page: every maximal run is handed over. -/
theorem sweepFrom_spec (page : HeapPage) (debug locked : Bool) (os : List Obj) : ∀ (current : ℕ) (inUse : Bool) (s : Sweep),
    Layout s.heap current page.objectEnd os → page.objectStart < current →
    ∃ s', sweepFrom page debug locked current inUse s = some (inUse || os.any (·.2.isMarked), s') ∧
      Swept page debug s s' current os (freeBlocks os) := by
  induction os using runs.induct unmarked with
  | case1 =>
    intro current inUse s h _
    cases h
    refine ⟨s, by rw [sweepFrom, if_neg (lt_irrefl _)]; simp, ?_⟩
    rw [freeBlocks_nil]
    exact Swept.nil
  | case2 x os hu ih =>
    intro current inUse s h hgt
    obtain ⟨o, rfl, -, -⟩ := h.cons_inv
    have hm : o.isMarked = false := by simpa [unmarked] using hu
    obtain ⟨s', hs', hsw⟩ := ih _ inUse _ (h.behind_run debug locked) (by omega)
    refine ⟨s', ?_, ?_⟩
    · rw [sweepFrom_unmarked h hm, hs', any_dropWhile_unmarked]
      simp [hm]
    · rw [freeBlocks_unmarked hm]
      exact hsw.cons_unmarked hm h.runSize_pos (.inl (by omega))
  | case3 x os hu ih =>
    intro current inUse s h hgt
    obtain ⟨o, rfl, h3, hl⟩ := h.cons_inv
    have hm : o.isMarked := by simpa [unmarked] using hu
    have hr : Layout (s.clearMarkBit current o).heap (current + o.size) page.objectEnd os :=
      hl.congr (fun y hy => update_of_ne (by omega) _ _)
    obtain ⟨s', hs', hsw⟩ := ih _ true _ hr (by omega)
    refine ⟨s', ?_, ?_⟩
    · rw [sweepFrom_marked h hm, hs']
      simp [hm]
    · rw [freeBlocks_marked hm]
      exact hsw.cons_marked hm h3

end Loop

/-! ## The page -/

section Page

theorem Layout.le_freeBlocks (h : Layout heap a e os) : ∀ b ∈ freeBlocks os, a ≤ b.addr := by
  intro b hb
  obtain ⟨r, hr, rfl⟩ := List.mem_map.mp hb
  obtain ⟨pre, post, rfl, hne, -⟩ := mem_runs_iff.mp hr
  obtain ⟨o, r, rfl⟩ := exists_cons_of_ne_nil hne
  exact (h.bounds o (by simp)).1

/-- Behind a run comes a marked object, so the next run does not touch it. -/
theorem Layout.lt_freeBlocks (h : Layout heap a e (os.dropWhile unmarked)) :
    ∀ b ∈ freeBlocks (os.dropWhile unmarked), a < b.addr := by
  intro b hb
  cases hd : os.dropWhile unmarked with
  | nil => rw [hd, freeBlocks_nil] at hb; cases hb
  | cons x rest =>
    have hx : unmarked x = false := head?_dropWhile (by rw [hd]; rfl)
    rw [hd] at h hb
    obtain ⟨o, rfl, h0, hl⟩ := h.cons_inv
    rw [freeBlocks_marked (by simpa [unmarked] using hx)] at hb
    have := hl.le_freeBlocks b hb
    omega

theorem Layout.freeBlocks_apart (os : List Obj) : ∀ {a : ℕ}, Layout heap a e os →
    (freeBlocks os).Pairwise (fun b c => b.endAddr < c.addr) := by
  induction os using runs.induct unmarked with
  | case1 => intro a _; rw [freeBlocks_nil]; exact List.Pairwise.nil
  | case2 x os hu ih =>
    intro a h
    obtain ⟨o, rfl, -, -⟩ := h.cons_inv
    rw [freeBlocks_unmarked (by simpa [unmarked] using hu)]
    exact pairwise_cons.mpr ⟨fun b hb => h.run_split.lt_freeBlocks b hb, ih h.run_split⟩
  | case3 x os hu ih =>
    intro a h
    obtain ⟨o, rfl, -, hl⟩ := h.cons_inv
    rw [freeBlocks_marked (by simpa [unmarked] using hu)]
    exact ih hl

theorem Layout.freeBlocks_disjoint (os : List Obj) : ∀ {a : ℕ}, Layout heap a e os →
    ∀ o ∈ os, o.2.isMarked → ∀ b ∈ freeBlocks os, b.Disjoint o.block := by
  induction os using runs.induct unmarked with
  | case1 => intro a _ o ho; cases ho
  | case2 x os hu ih =>
    intro a h y hy hm b hb
    obtain ⟨o, rfl, -, -⟩ := h.cons_inv
    have ho : o.isMarked = false := by simpa [unmarked] using hu
    have hy' := mem_dropWhile_of_marked ho hy hm
    rw [freeBlocks_unmarked ho] at hb
    rcases mem_cons.mp hb with rfl | hb
    · exact .inl (h.run_split.bounds y hy').1
    · exact ih h.run_split y hy' hm b hb
  | case3 x os hu ih =>
    intro a h y hy hm b hb
    obtain ⟨o, rfl, -, hl⟩ := h.cons_inv
    rw [freeBlocks_marked (by simpa [unmarked] using hu)] at hb
    rcases mem_cons.mp hy with rfl | hy
    · exact .inr (hl.le_freeBlocks b hb)
    · exact ih hl y hy hm b hb

theorem Layout.used_add_freed (h : Layout heap a e os) :
    totalSize (os.filter (·.2.isMarked)) + ((freeBlocks os).map Block.size).sum = e - a := by
  have hs := sum_runs (p := unmarked) (fun o : Obj => o.2.size) os
  have hf : ((freeBlocks os).map Block.size).sum =
      ((runs unmarked os).map (fun r => (r.map (fun o : Obj => o.2.size)).sum)).sum := by
    rw [freeBlocks, List.map_map]
    rfl
  have hu : os.filter (·.2.isMarked) = os.filter (fun o => !unmarked o) := by
    simp [unmarked]
  have ht := h.total
  rw [hf, hu]
  simp only [totalSize] at ht ⊢
  omega

end Page

/-- A page without marks is one run, which is not handed over. -/
theorem sweepPage_unused {page : HeapPage} {debug locked : Bool} {s : Sweep} {o : RawObject}
    {os : List Obj} (h : Layout s.heap page.objectStart page.objectEnd ((page.objectStart, o) :: os))
    (hm : o.isMarked = false) (hr : os.dropWhile unmarked = []) :
    ∃ s', sweepPage page debug locked s = some (false, s') ∧
      Swept page debug s s' page.objectStart ((page.objectStart, o) :: os) [] := by
  have hb := h.run_split
  rw [hr] at hb
  have he : page.objectStart + runSize o os = page.objectEnd := by
    have := hb.total
    simpa [totalSize] using this
  have h0 := h.runSize_pos
  have hn : ∀ x ∈ (page.objectStart, o) :: os, x.2.isMarked = false := by
    intro x hx
    rcases mem_cons.mp hx with rfl | hx
    · exact hm
    · simpa [unmarked] using dropWhile_eq_nil_iff.mp hr x hx
  refine ⟨_, by rw [sweepPage, sweepFrom_unmarked h hm, he, sweepFrom, if_neg (lt_irrefl _)],
    ?_, ?_, fun a ha => ?_, fun x hx hxm => ?_⟩
  · rw [sweepFree_freelist, if_neg (by simp)]
    rfl
  · rw [sweepFree_zapped, freeBlocks_unmarked hm, hr, freeBlocks_nil,
      show page.objectEnd - page.objectStart = runSize o os by omega]
  · exact sweepFree_heap (by omega) (.inl ha)
  · rw [hn x hx] at hxm
    cases hxm

theorem sweepPage_spec (page : HeapPage) (debug locked : Bool) {s : Sweep} {os : List Obj}
    (h : Layout s.heap page.objectStart page.objectEnd os) :
    ∃ s', sweepPage page debug locked s = some (os.any (·.2.isMarked), s') ∧
      Swept page debug s s' page.objectStart os
        (if os.any (·.2.isMarked) then freeBlocks os else []) := by
  cases os with
  | nil =>
    have he := h.total
    simp only [totalSize, map_nil, sum_nil, add_zero] at he
    refine ⟨s, by rw [sweepPage, sweepFrom, if_neg (by omega)]; rfl, ?_⟩
    exact Swept.nil
  | cons x os =>
    obtain ⟨o, rfl, h3, hl⟩ := h.cons_inv
    cases hm : o.isMarked with
    | true =>
      have hr : Layout (s.clearMarkBit page.objectStart o).heap (page.objectStart + o.size)
          page.objectEnd os := hl.congr (fun y hy => update_of_ne (by omega) _ _)
      obtain ⟨s', hs', hsw⟩ := sweepFrom_spec page debug locked os _ true _ hr (by omega)
      have ha : ((page.objectStart, o) :: os).any (·.2.isMarked) = true := by simp [hm]
      refine ⟨s', ?_, ?_⟩
      · rw [sweepPage, sweepFrom_marked h hm, hs', ha, Bool.true_or]
      · rw [ha, if_pos rfl, freeBlocks_marked hm]
        exact hsw.cons_marked hm h3
    | false =>
      by_cases hr : os.dropWhile unmarked = []
      · have ha : ((page.objectStart, o) :: os).any (·.2.isMarked) = false := by
          rw [any_cons, hm, Bool.false_or, ← any_dropWhile_unmarked, hr]
          rfl
        rw [ha]
        exact sweepPage_unused h hm hr
      -- a marked object ends the first run
      obtain ⟨y, _, hy⟩ := exists_cons_of_ne_nil hr
      have hym : y.2.isMarked := by
        have := head?_dropWhile (by rw [hy]; rfl)
        simpa [unmarked] using this
      have ha : ((page.objectStart, o) :: os).any (·.2.isMarked) = true := by
        rw [any_cons, ← any_dropWhile_unmarked, hy, any_cons, hym]
        simp
      obtain ⟨s', hs', hsw⟩ := sweepFrom_spec page debug locked _ _ false _
        (h.behind_run debug locked) (Nat.lt_add_of_pos_right h.runSize_pos)
      have hlt : page.objectStart + runSize o os ≠ page.objectEnd := by
        have hb := h.run_split
        rw [hy] at hb
        obtain ⟨_, -, h0, hl'⟩ := hb.cons_inv
        have := hl'.total
        omega
      refine ⟨s', ?_, ?_⟩
      · rw [sweepPage, sweepFrom_unmarked h hm, hs', any_dropWhile_unmarked, Bool.false_or,
          any_cons, hm, Bool.false_or]
      · rw [ha, if_pos rfl, freeBlocks_unmarked hm]
        exact hsw.cons_unmarked hm h.runSize_pos (.inr hlt)

/-- **Sweeping a page is exact.**  On a page of consecutive objects with any marks, `SweepPage`
returns whether an object is marked; every marked object stays, without its mark, and no block that
is overwritten or freed touches it; the freed blocks are the maximal runs of unmarked objects, each
once; they go to the free list if the page is in use, and nothing does otherwise; used and freed
bytes add up to the page. -/
theorem sweepPage_exact (page : HeapPage) (debug locked : Bool) (s : Sweep) (objs : List Obj)
    (h : Layout s.heap page.objectStart page.objectEnd objs) :
    ∃ (s' : Sweep) (freed : List Block),
      sweepPage page debug locked s = some (objs.any (·.2.isMarked), s') ∧
      (∀ o ∈ objs, o.2.isMarked = true →
        s'.heap o.1 = some o.2.clearMarkBit ∧ o.2.clearMarkBit.isMarked = false ∧
        o.2.clearMarkBit.size = o.2.size ∧ ∀ b ∈ freed, b.Disjoint o.block) ∧
      freed.Pairwise (fun b c => b.endAddr < c.addr) ∧
      (∀ b, b ∈ freed ↔ ∃ r, IsMaximalRun unmarked objs r ∧ runBlock r = b) ∧
      s'.freelist = freeAll s.freelist (if objs.any (·.2.isMarked) then freed else []) ∧
      s'.zapped = s.zapped ++ zaps page debug freed ∧
      totalSize (objs.filter (·.2.isMarked)) + (freed.map Block.size).sum =
        page.objectEnd - page.objectStart := by
  obtain ⟨s', hs', hsw⟩ := sweepPage_spec page debug locked h
  refine ⟨s', freeBlocks objs, hs', ?_, h.freeBlocks_apart objs, ?_, hsw.freelist, hsw.zapped,
    h.used_add_freed⟩
  · intro o ho hm
    exact ⟨hsw.marked o ho hm, RawObject.isMarked_clearMarkBit _, RawObject.size_clearMarkBit _,
      h.freeBlocks_disjoint objs o ho hm⟩
  · intro b
    rw [freeBlocks, List.mem_map]
    exact exists_congr (fun r => and_congr_left' mem_runs_iff)

/-- Three objects of 16 bytes, the middle one marked. -/
theorem sweepPage_exact_middle :
    ∃ s', sweepPage ⟨1024, 1072, true⟩ false true
        ⟨fun a => some ⟨if a = 1040 then 0x10002 else 0x10000, 16⟩, .reset, []⟩ = some (true, s') ∧
      s'.heap 1040 = some ⟨0x10000, 16⟩ := by
  have hl : Layout (fun a => some ⟨if a = 1040 then 0x10002 else 0x10000, 16⟩) 1024 1072
      [(1024, ⟨0x10000, 16⟩), (1040, ⟨0x10002, 16⟩), (1056, ⟨0x10000, 16⟩)] :=
    .cons rfl (by decide) (by decide) (.cons rfl (by decide) (by decide)
      (.cons rfl (by decide) (by decide) .nil))
  obtain ⟨s', _, h1, h2, -⟩ := sweepPage_exact ⟨1024, 1072, true⟩ false true
    ⟨fun a => some ⟨if a = 1040 then 0x10002 else 0x10000, 16⟩, .reset, []⟩ _ hl
  exact ⟨s', h1, (h2 (1040, ⟨0x10002, 16⟩) (by simp) (by decide)).1⟩

end DartSdk.Vm.GcSweeper
