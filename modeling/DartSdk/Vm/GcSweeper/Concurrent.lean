import Mathlib.Logic.Relation
import DartSdk.Vm.GcSweeper

/-!
# Sweeping while the mutator allocates (`SweeperTask`)

With `--concurrent_sweep` the data pages are swept while the mutator allocates from the free list
that the sweeper fills.  The two meet in the free list only, and every call of it holds its lock.

* `Step`: an iteration of the outer loop of `SweepPage`, or a call of the mutator.
* `Sweeping`: the invariant.  What has not been swept is one block of the memory in use; the sweeper
  cuts marked objects and runs off it, and a run that is freed moves to the free list.
* `sweepPage_concurrent`: what holds in every interleaving.
-/

namespace DartSdk.Vm.GcSweeper

open DartSdk.Tiling FreeList List Relation Function

/-- What the mutator does with the free list.  It allocates, or it gives back the rest of a block in
which it has placed objects (`AbandonBumpAllocation`). -/
inductive Request (st : State) : State → Prop
  | allocate {c : Call} : (∀ addr size, c ≠ .free addr size) → c.Allowed st → Request st (st.step c)
  | release {addr m n : ℕ} : ⟨addr, m + n⟩ ∈ st.handed → kObjectAlignment ∣ n → 0 < n →
      Request st ⟨st.fl.freeLocked (addr + m) n, st.given,
        ⟨addr, m⟩ :: st.handed.erase ⟨addr, m + n⟩⟩

/-- A page between two iterations, and the blocks that the mutator has. -/
structure Task where
  current : ℕ
  inUse : Bool
  sweep : Sweep
  handed : List Block

/-- The memory to which the mutator and the free list write. -/
def Task.blocks (t : Task) : List Block := t.sweep.freelist.blocks ++ t.handed

variable (page : HeapPage) (debug : Bool)

/-- Of an iteration the mutator sees the call of `Free` only.  The headers of the objects on the page
are not its business. -/
inductive Step (t : Task) : Task → Prop
  | sweep {size : ℕ} {inUse : Bool} {s : Sweep} : t.current < page.objectEnd →
      sweepObject page debug false t.current t.inUse t.sweep = some (size, inUse, s) →
      Step t ⟨t.current + size, inUse, s, t.handed⟩
  | mutator {st : State} {heap : ℕ → Option RawObject} :
      Request ⟨t.sweep.freelist, [], t.handed⟩ st →
      (∀ a, (∀ b ∈ t.blocks, a ∉ b) → heap a = t.sweep.heap a) →
      Step t ⟨t.current, t.inUse, ⟨heap, st.fl, t.sweep.zapped⟩, st.handed⟩

/-- `done` has been swept, `rest` has not.  `used` is the memory in use that is not the mutator's. -/
structure Sweeping (given used : List Block) (done rest : List Obj) (t : Task) : Prop where
  layout : Layout t.sweep.heap t.current page.objectEnd rest
  inUse : t.inUse = done.any (·.2.isMarked)
  kept : ∀ o ∈ done, o.2.isMarked → o.1 < t.current ∧ o.1 ∈ o.block ∧ o.block ∈ used ∧
    t.sweep.heap o.1 = some o.2.clearMarkBit
  ok : State.Ok ⟨t.sweep.freelist, given, t.handed ++ used⟩
  unswept : ⟨t.current, page.objectEnd - t.current⟩ ∈ used

section Memory

variable {fl : FreeList} {given bs cs : List Block} {addr size m n : ℕ}

theorem ok_perm (h : State.Ok ⟨fl, given, bs⟩) (hp : bs.Perm cs) : State.Ok ⟨fl, given, cs⟩ :=
  ⟨h.inv, h.tiles.perm (hp.append_left _)⟩

theorem ok_cut (h : State.Ok ⟨fl, given, ⟨addr, m + n⟩ :: bs⟩) :
    State.Ok ⟨fl, given, ⟨addr, m⟩ :: ⟨addr + m, n⟩ :: bs⟩ :=
  ⟨h.inv, (h.tiles.perm perm_middle).split.perm (perm_middle.trans (perm_middle.cons _)).symm⟩

theorem ok_free (h : State.Ok ⟨fl, given, ⟨addr, size⟩ :: bs⟩) (ha : kObjectAlignment ∣ size)
    (h0 : 0 < size) : State.Ok ⟨fl.freeLocked addr size, given, bs⟩ := by
  obtain ⟨hi, hp⟩ := freeLocked_spec h.inv addr ha h0
  exact ⟨hi, h.tiles.perm (perm_middle.trans (hp.symm.append_right _))⟩

/-- The mutator leaves alone what others use. -/
theorem Request.ok {handed used : List Block} {st : State} (h : Request ⟨fl, [], handed⟩ st)
    (hok : State.Ok ⟨fl, given, handed ++ used⟩) : State.Ok ⟨st.fl, given, st.handed ++ used⟩ := by
  cases h with
  | @allocate c hc hal =>
    have hs (h : c.Allowed ⟨fl, given, handed ++ used⟩) := step_ok hok h
    cases c with
    | free addr size => exact absurd rfl (hc addr size)
    | tryAllocate | tryAllocateSmall | tryAllocateLarge =>
      have h := hs hal
      revert h
      simp only [State.step, State.allocated]
      split <;> exact id
  | release hm ha h0 =>
    have hct := ok_cut (ok_perm hok ((perm_cons_erase hm).append_right used))
    exact ok_free (ok_perm hct (.swap _ _ _)) ha h0

end Memory

section Objects

variable {s : Sweep} {heap he' : ℕ → Option RawObject} {a e : ℕ} {o : RawObject} {os : List Obj}

theorem Layout.dvd_takeWhile (h : Layout heap a e os) :
    kObjectAlignment ∣ totalSize (os.takeWhile Obj.unmarked) := by
  induction h with
  | nil => exact dvd_zero _
  | cons _ h2 _ _ ih =>
    rw [takeWhile_cons]
    split_ifs
    · exact Nat.dvd_add h2 ih
    · exact dvd_zero _

theorem Layout.dvd_runSize (h : Layout heap a e ((a, o) :: os)) : kObjectAlignment ∣ runSize o os := by
  cases h with
  | cons _ h2 _ hl => exact Nat.dvd_add h2 hl.dvd_takeWhile

/-- Only the addresses of the page matter. -/
theorem Layout.congr_page (h : Layout heap a e os)
    (heq : ∀ x, a ≤ x → x < e → he' x = heap x) : Layout he' a e os := by
  induction h with
  | nil => exact .nil
  | cons h1 h2 h3 hl ih =>
    have := hl.total
    exact .cons (by rw [heq _ le_rfl (by omega), h1]) h2 h3 (ih fun x hx => heq x (by omega))

variable {page debug} {inUse : Bool} (h : Layout s.heap a page.objectEnd ((a, o) :: os))

include h

theorem sweepObject_marked (hm : o.isMarked) :
    sweepObject page debug false a inUse s = some (o.size, true, s.clearMarkBit a o) := by
  cases h with
  | cons h1 _ _ _ => simp only [sweepObject, h1, hm, if_true, RawObject.size_clearMarkBit]

theorem sweepObject_unmarked (hm : o.isMarked = false) :
    sweepObject page debug false a inUse s =
      some (runSize o os, inUse, sweepFree page debug false s a (a + runSize o os)) := by
  cases h with
  | cons h1 _ _ hl =>
    simp only [sweepObject, h1, hm, Bool.false_eq_true, if_false, findFreeEnd_eq hl, Option.map_some,
      Nat.add_assoc, Nat.add_sub_cancel_left, runSize]

end Objects

section Invariant

variable {page} {given used : List Block} {done rest : List Obj} {t : Task}
  (h : Sweeping page given used done rest t)

include h

/-- What the mutator and the free list write to is apart from what others use. -/
theorem Sweeping.apart :
    t.blocks.Pairwise Block.Disjoint ∧ ∀ b ∈ t.blocks, ∀ u ∈ used, b.Disjoint u := by
  have hp := h.ok.tiles.pairwise
  rw [← append_assoc] at hp
  exact ⟨(pairwise_append.mp hp).1, (pairwise_append.mp hp).2.2⟩

theorem Sweeping.mutator {st : State} {heap : ℕ → Option RawObject}
    (hst : Request ⟨t.sweep.freelist, [], t.handed⟩ st)
    (hh : ∀ a, (∀ b ∈ t.blocks, a ∉ b) → heap a = t.sweep.heap a) :
    Sweeping page given used done rest
      ⟨t.current, t.inUse, ⟨heap, st.fl, t.sweep.zapped⟩, st.handed⟩ := by
  have hs {u : Block} (hu : u ∈ used) {a : ℕ} (ha : a ∈ u) : heap a = t.sweep.heap a := by
    refine hh a fun b hb => ?_
    have := h.apart.2 b hb u hu
    simp only [Block.Disjoint, Block.endAddr, Block.mem_iff] at *
    omega
  refine ⟨h.layout.congr_page fun x hx hlt => hs h.unswept ?_, h.inUse, fun o ho hm => ?_,
    hst.ok h.ok, h.unswept⟩
  · exact ⟨hx, show x < t.current + (page.objectEnd - t.current) by omega⟩
  · obtain ⟨hlt, hmm, hus, hk⟩ := h.kept o ho hm
    exact ⟨hlt, hmm, hus, (hs hus hmm).trans hk⟩

/-- The unswept part is cut behind what an iteration treats. -/
theorem Sweeping.cut (size : ℕ) (hle : t.current + size ≤ page.objectEnd) :
    ∃ used', (∀ o ∈ done, o.2.isMarked → o.block ∈ used') ∧
      ⟨t.current + size, page.objectEnd - (t.current + size)⟩ ∈ used' ∧
      State.Ok ⟨t.sweep.freelist, given, ⟨t.current, size⟩ :: (t.handed ++ used')⟩ := by
  have hs : page.objectEnd - t.current = size + (page.objectEnd - (t.current + size)) := by omega
  have hu := h.unswept
  rw [hs] at hu
  have hf := ok_perm h.ok (((perm_cons_erase hu).append_left _).trans perm_middle)
  refine ⟨_, fun o ho hm => ?_, mem_cons_self, ok_perm (ok_cut hf) (perm_middle.symm.cons _)⟩
  obtain ⟨hlt, -, hus, -⟩ := h.kept o ho hm
  refine mem_cons_of_mem _ ((mem_erase_of_ne fun heq => ?_).mpr hus)
  exact absurd (congrArg Block.addr heq) hlt.ne

theorem Sweeping.sweep (debug : Bool) (hlt : t.current < page.objectEnd) :
    ∃ size inUse s used' done' rest',
      sweepObject page debug false t.current t.inUse t.sweep = some (size, inUse, s) ∧ 0 < size ∧
      done' ++ rest' = done ++ rest ∧
      Sweeping page given used' done' rest' ⟨t.current + size, inUse, s, t.handed⟩ := by
  have hly := h.layout
  cases rest with
  | nil =>
    exact absurd hly.total hlt.ne
  | cons x os =>
    obtain ⟨o, rfl, h0, hl⟩ := hly.cons_inv
    cases hm : o.isMarked with
    | true =>
      have := hl.total
      obtain ⟨used', hk, hun, hok⟩ := h.cut o.size (by omega)
      refine ⟨_, _, _, _ :: used', done ++ [(t.current, o)], os, sweepObject_marked hly hm, h0,
        by simp, hl.congr fun y hy => update_of_ne (by omega) _ _, by simp [hm], ?_,
        ok_perm hok perm_middle.symm, mem_cons_of_mem _ hun⟩
      intro y hy hym
      rcases mem_append.mp hy with hy | hy
      · obtain ⟨hyl, hmm, -, hh⟩ := h.kept y hy hym
        refine ⟨Nat.lt_add_right _ hyl, hmm, mem_cons_of_mem _ (hk y hy hym), ?_⟩
        rw [← hh]
        exact update_of_ne hyl.ne _ _
      · obtain rfl := mem_singleton.mp hy
        have hlt := Nat.lt_add_of_pos_right (n := t.current) h0
        exact ⟨hlt, ⟨le_rfl, hlt⟩, mem_cons_self, update_self _ _ _⟩
    | false =>
      have := hly.run_split.total
      have hp := hly.runSize_pos
      obtain ⟨used', hk, hun, hok⟩ := h.cut (runSize o os) (by omega)
      -- a run that is the whole page stays in use
      have ha : ∃ used'', (∀ u ∈ used', u ∈ used'') ∧ State.Ok
          ⟨(sweepFree page debug false t.sweep t.current (t.current + runSize o os)).freelist, given,
            t.handed ++ used''⟩ := by
        rw [sweepFree_freelist, Nat.add_sub_cancel_left]
        split_ifs
        · exact ⟨used', fun _ hu => hu, ok_free hok hly.dvd_runSize hp⟩
        · exact ⟨_, fun _ hu => mem_cons_of_mem _ hu, ok_perm hok perm_middle.symm⟩
      obtain ⟨used'', hs, hok'⟩ := ha
      have hr : ∀ y ∈ (t.current, o) :: os.takeWhile Obj.unmarked, y.2.isMarked = false := by
        refine forall_mem_cons.mpr ⟨hm, fun y hy => ?_⟩
        simpa [Obj.unmarked] using mem_takeWhile_imp hy
      refine ⟨_, _, _, used'', done ++ (t.current, o) :: os.takeWhile Obj.unmarked,
        os.dropWhile Obj.unmarked, sweepObject_unmarked hly hm, hp, ?_,
        hly.behind_run debug false, ?_, fun y hy hym => ?_, hok', hs _ hun⟩
      · rw [append_assoc, cons_append, takeWhile_append_dropWhile]
      · rw [any_append, ← h.inUse, List.any_eq_false.mpr fun y hy => by simp [hr y hy],
          Bool.or_false]
      · have hy := (mem_append.mp hy).resolve_right fun hy => by simp [hr y hy] at hym
        obtain ⟨hyl, hmm, -, hh⟩ := h.kept y hy hym
        refine ⟨Nat.lt_add_right _ hyl, hmm, hs _ (hk y hy hym), ?_⟩
        rw [← hh]
        exact sweepFree_heap (Nat.lt_add_of_pos_right hp) (.inl hyl)

end Invariant

/-- **Sweeping and allocating at the same time is safe.**  At first the page is in use, and nothing
of it is free.  In every interleaving, no free element and no block that the mutator has touches
another one or a marked object; the sweeper does not get stuck; and when it is through, it returns
whether an object is marked, and the marked objects are as they were, without their marks. -/
theorem sweepPage_concurrent (given handed : List Block) (s : Sweep) (objs : List Obj)
    (hlayout : Layout s.heap page.objectStart page.objectEnd objs)
    (hok : State.Ok
      ⟨s.freelist, given, handed ++ [⟨page.objectStart, page.objectEnd - page.objectStart⟩]⟩)
    {t : Task} (hrun : ReflTransGen (Step page debug) ⟨page.objectStart, false, s, handed⟩ t) :
    t.blocks.Pairwise Block.Disjoint ∧
      (∀ b ∈ t.blocks, ∀ o ∈ objs, o.2.isMarked → b.Disjoint o.block) ∧
      (t.current < page.objectEnd → ∃ t', Step page debug t t' ∧ t.current < t'.current) ∧
      (page.objectEnd ≤ t.current → t.inUse = objs.any (·.2.isMarked) ∧
        ∀ o ∈ objs, o.2.isMarked → t.sweep.heap o.1 = some o.2.clearMarkBit) := by
  have hi : ∃ used done rest, done ++ rest = objs ∧ Sweeping page given used done rest t := by
    induction hrun with
    | refl => exact ⟨_, [], objs, rfl, hlayout, rfl, by simp, hok, mem_singleton_self _⟩
    | tail _ hsp ih =>
      obtain ⟨used, done, rest, hob, h⟩ := ih
      cases hsp with
      | sweep hlt hs =>
        obtain ⟨_, _, _, used', done', rest', hs', -, hob', h'⟩ := h.sweep debug hlt
        rw [hs] at hs'
        cases hs'
        exact ⟨used', done', rest', hob'.trans hob, h'⟩
      | mutator hst hh => exact ⟨used, done, rest, hob, h.mutator hst hh⟩
  obtain ⟨used, done, rest, rfl, h⟩ := hi
  refine ⟨h.apart.1, fun b hb o ho hm => ?_, fun hlt => ?_, fun hle => ?_⟩
  · rcases mem_append.mp ho with ho | ho
    · exact h.apart.2 b hb _ (h.kept o ho hm).2.2.1
    · have := h.layout.bounds o ho
      have := h.apart.2 b hb _ h.unswept
      simp only [Block.Disjoint, Block.endAddr, Obj.block] at *
      omega
  · obtain ⟨_, _, _, _, _, _, hs, h0, -⟩ := h.sweep debug hlt
    exact ⟨_, .sweep hlt hs, Nat.lt_add_of_pos_right h0⟩
  · obtain rfl : rest = [] := by
      cases rest with
      | nil => rfl
      | cons x os =>
        obtain ⟨o, -, h0, hl⟩ := h.layout.cons_inv
        have := hl.total
        omega
    rw [append_nil]
    exact ⟨h.inUse, fun o ho hm => (h.kept o ho hm).2.2.2⟩

/-- Three objects of 16 bytes, the middle one marked. -/
def middleHeap (a : ℕ) : Option RawObject := some ⟨if a = 1040 then 0x10002 else 0x10000, 16⟩

/-- The first object is freed, and the mutator gets it. -/
theorem sweepPage_concurrent_middle : ∃ t,
    ReflTransGen (Step ⟨1024, 1072, false⟩ false) ⟨1024, false, ⟨middleHeap, reset, []⟩, []⟩ t ∧
      t.current = 1040 ∧ t.handed = [⟨1024, 16⟩] ∧ ∀ b ∈ t.blocks, b.Disjoint ⟨1040, 16⟩ := by
  have hl : Layout middleHeap 1024 1072
      [(1024, ⟨0x10000, 16⟩), (1040, ⟨0x10002, 16⟩), (1056, ⟨0x10000, 16⟩)] :=
    .cons rfl (by decide) (by decide) (.cons rfl (by decide) (by decide)
      (.cons rfl (by decide) (by decide) .nil))
  have hr : reset.blocks = [] := by decide
  have hs : Step ⟨1024, 1072, false⟩ false ⟨1024, false, ⟨middleHeap, reset, []⟩, []⟩ _ :=
    .sweep (by decide) (sweepObject_unmarked hl rfl)
  have hrn := ReflTransGen.tail (.single hs)
    (.mutator (.allocate (c := .tryAllocate 16) (by simp) (by decide)) fun _ _ => rfl)
  refine ⟨_, hrn, rfl, by decide +kernel, fun b hb => ?_⟩
  exact (sweepPage_concurrent ⟨1024, 1072, false⟩ false [⟨1024, 48⟩] [] ⟨_, reset, []⟩ _ hl
    ⟨inv_reset, by simp [hr], by simp [memory, hr]⟩ hrn).2.1 b hb (1040, ⟨0x10002, 16⟩)
    (by simp) rfl

end DartSdk.Vm.GcSweeper
