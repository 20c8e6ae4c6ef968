import DartSdk.Vm.SpillSlots
import Mathlib.Order.Bounds.Basic

/-!
# Use intervals of live ranges

* `firstIntersection_spec`: `FirstIntersection` finds **the smallest position that is in both lists**
  of use intervals.
-/

namespace DartSdk.Vm.FlowGraphAllocator

open List

section Intersection

def kIllegalPosition : ℤ := -1

def kMaxPosition : ℤ := 0x7FFFFFFF

/-- `UseInterval::Contains`. -/
def UseInterval.Contains (i : UseInterval) (pos : ℤ) : Prop := i.start ≤ pos ∧ pos < i.finish

/-- `UseInterval::Intersect`. -/
def UseInterval.intersect (i other : UseInterval) : ℤ :=
  if i.start ≤ other.start then
    if other.start < i.finish then other.start else kIllegalPosition
  else if i.start < other.finish then i.start
  else kIllegalPosition

def firstIntersection : List UseInterval → List UseInterval → ℤ
  | i :: a, j :: u =>
    if i.intersect j ≠ kIllegalPosition then i.intersect j
    else if i.start < j.start then firstIntersection a (j :: u)
    else firstIntersection (i :: a) u
  | _, _ => kMaxPosition
termination_by a u => a.length + u.length

/-- Sorted and disjoint intervals of lifetime positions, which are not the illegal one. -/
structure Intervals (l : List UseInterval) : Prop where
  ordered : l.IsChain fun i j => i.finish ≤ j.start
  legal : ∀ i ∈ l, i.start ≠ kIllegalPosition

def positions (l : List UseInterval) : Set ℤ := {pos | ∃ i ∈ l, i.Contains pos}

variable {i j : UseInterval} {a u : List UseInterval} {pos : ℤ}

theorem Intervals.tail (h : Intervals (i :: a)) : Intervals a :=
  ⟨h.ordered.of_cons, fun j hj => h.legal j (mem_cons_of_mem i hj)⟩

theorem mem_positions_cons : pos ∈ positions (i :: a) ↔ i.Contains pos ∨ pos ∈ positions a := by
  simp [positions]

theorem start_le_of_mem (h : (i :: a).IsChain fun i j => i.finish ≤ j.start)
    (hp : pos ∈ positions (i :: a)) : i.start ≤ pos := by
  induction a generalizing i with
  | nil =>
    rcases mem_positions_cons.mp hp with hi | ⟨_, hn, -⟩
    · exact hi.1
    · cases hn
  | cons j a ih =>
    rcases mem_positions_cons.mp hp with hi | hp
    · exact hi.1
    · have hij := (isChain_cons_cons.mp h).1
      have hj := ih (isChain_cons_cons.mp h).2 hp
      have := i.start_lt_finish
      omega

/-- What `Intersect` returns for intervals that start at legal positions. -/
theorem intersect_cases (hi : i.start ≠ kIllegalPosition) (hj : j.start ≠ kIllegalPosition) :
    (i.intersect j ≠ kIllegalPosition ∧ i.intersect j = max i.start j.start ∧
      i.Contains (i.intersect j) ∧ j.Contains (i.intersect j)) ∨
    (i.intersect j = kIllegalPosition ∧
      if i.start < j.start then i.finish ≤ j.start else j.finish ≤ i.start) := by
  have := i.start_lt_finish
  have := j.start_lt_finish
  unfold UseInterval.intersect UseInterval.Contains
  split_ifs <;> omega

theorem positions_inter_of_le (h : (j :: u).IsChain fun i j => i.finish ≤ j.start)
    (hij : i.finish ≤ j.start) :
    positions (i :: a) ∩ positions (j :: u) = positions a ∩ positions (j :: u) := by
  ext pos
  refine and_congr_left fun hp => ?_
  rw [mem_positions_cons, or_iff_right]
  intro hi
  have := start_le_of_mem h hp
  have := hi.2
  omega

/-- **`FirstIntersection` returns the smallest position that is in both lists, and `kMaxPosition`
if there is none.** -/
theorem firstIntersection_spec (ha : Intervals a) (hu : Intervals u) :
    IsLeast (positions a ∩ positions u) (firstIntersection a u) ∨
      positions a ∩ positions u = ∅ ∧ firstIntersection a u = kMaxPosition := by
  fun_induction firstIntersection a u with
  | case1 i a j u hf =>
    obtain ⟨-, hm, hi, hj⟩ | ⟨hil, -⟩ :=
      intersect_cases (ha.legal i mem_cons_self) (hu.legal j mem_cons_self)
    · refine .inl ⟨⟨⟨i, mem_cons_self, hi⟩, ⟨j, mem_cons_self, hj⟩⟩, fun pos hp => ?_⟩
      rw [hm]
      exact max_le (start_le_of_mem ha.ordered hp.1) (start_le_of_mem hu.ordered hp.2)
    · exact absurd hil hf
  | case2 i a j u hn hlt ih =>
    obtain ⟨hf, -⟩ | ⟨-, hap⟩ :=
      intersect_cases (ha.legal i mem_cons_self) (hu.legal j mem_cons_self)
    · exact absurd hf hn
    · rw [if_pos hlt] at hap
      rw [positions_inter_of_le hu.ordered hap]
      exact ih ha.tail hu
  | case3 i a j u hn hge ih =>
    obtain ⟨hf, -⟩ | ⟨-, hap⟩ :=
      intersect_cases (ha.legal i mem_cons_self) (hu.legal j mem_cons_self)
    · exact absurd hf hn
    · rw [if_neg hge] at hap
      rw [Set.inter_comm, positions_inter_of_le ha.ordered hap, Set.inter_comm]
      exact ih ha hu.tail
  | case4 a u he =>
    refine .inr ⟨Set.eq_empty_iff_forall_notMem.mpr ?_, rfl⟩
    rintro pos ⟨⟨i, hi, -⟩, ⟨j, hj, -⟩⟩
    obtain ⟨_, _, rfl⟩ := exists_cons_of_ne_nil (ne_nil_of_mem hi)
    obtain ⟨_, _, rfl⟩ := exists_cons_of_ne_nil (ne_nil_of_mem hj)
    exact he _ _ _ _ rfl rfl

/-- The interval begins in the hole of the list. -/
theorem firstIntersection_spec_hole :
    IsLeast (positions [⟨0, 4, by decide⟩, ⟨6, 10, by decide⟩] ∩ positions [⟨4, 8, by decide⟩]) 6 := by
  have hf : firstIntersection [⟨0, 4, by decide⟩, ⟨6, 10, by decide⟩] [⟨4, 8, by decide⟩] = 6 := by
    decide +kernel
  have hs := firstIntersection_spec (a := [⟨0, 4, by decide⟩, ⟨6, 10, by decide⟩])
    (u := [⟨4, 8, by decide⟩]) ⟨by simp, by simp [kIllegalPosition]⟩
    ⟨by simp, by simp [kIllegalPosition]⟩
  rw [hf] at hs
  exact hs.resolve_right fun h => absurd h.2 (by decide)

end Intersection

end DartSdk.Vm.FlowGraphAllocator
