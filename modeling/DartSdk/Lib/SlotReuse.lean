import Mathlib.Algebra.GroupWithZero.Nat
import Mathlib.Data.List.Basic

/-!
# Reuse of expired cells

A cell is of a kind and is taken until it expires.  A request goes to a cell of its kind that has
expired when the request starts, or to a new cell.

* `Run.cell`: a cell that has been given out is of the kind that was asked for, and does not
  expire before any of its requests has finished;
* `Run.pairwise`: so, in whatever order the requests are made, **two requests that share a cell do
  not overlap**;
* `offset_le`: cells of different widths laid out one after the other do not overlap either.
-/

namespace DartSdk.SlotReuse

open List Option

variable {K : Type}

structure Request (K : Type) where
  kind : K
  start : ℤ
  finish : ℤ
  start_le_finish : start ≤ finish

structure Cell (K : Type) where
  kind : K
  expiration : ℤ

/-- The request is given the cell with this number. -/
inductive Step : List (Cell K) → Request K → ℕ → List (Cell K) → Prop
  | reuse {cells : List (Cell K)} {r : Request K} {k : ℕ} {c : Cell K} :
      cells[k]? = some c → c.kind = r.kind → c.expiration ≤ r.start →
      Step cells r k (cells.set k ⟨r.kind, r.finish⟩)
  | fresh {cells : List (Cell K)} {r : Request K} :
      Step cells r cells.length (cells ++ [⟨r.kind, r.finish⟩])

/-- The requests that have been made, the last one first, with the cells they were given. -/
inductive Run (init : List (Cell K)) : List (Request K × ℕ) → List (Cell K) → Prop
  | start : Run init [] init
  | step {served : List (Request K × ℕ)} {cells cells' : List (Cell K)} {r : Request K} {k : ℕ} :
      Run init served cells → Step cells r k cells' → Run init ((r, k) :: served) cells'

section Runs

variable {init cells cells' : List (Cell K)} {served : List (Request K × ℕ)} {r : Request K} {k : ℕ}

theorem Step.grows (h : Step cells r k cells') {i : ℕ} {c : Cell K} (hc : cells[i]? = some c) :
    ∃ c', cells'[i]? = some c' ∧ c'.kind = c.kind ∧ c.expiration ≤ c'.expiration := by
  cases h with
  | reuse hk hkn hf =>
    by_cases hik : k = i
    · subst hik
      rw [hk] at hc
      cases hc
      obtain ⟨hlt, -⟩ := List.getElem?_eq_some_iff.mp hk
      exact ⟨_, getElem?_set_self hlt, hkn.symm, Int.le_trans hf r.start_le_finish⟩
    · exact ⟨c, by rw [getElem?_set_ne hik, hc], rfl, Int.le_refl _⟩
  | fresh =>
    obtain ⟨hlt, -⟩ := List.getElem?_eq_some_iff.mp hc
    exact ⟨c, by rw [getElem?_append_left hlt, hc], rfl, Int.le_refl _⟩

theorem Step.cell (h : Step cells r k cells') : cells'[k]? = some ⟨r.kind, r.finish⟩ := by
  cases h with
  | reuse hk =>
    obtain ⟨hlt, -⟩ := List.getElem?_eq_some_iff.mp hk
    exact getElem?_set_self hlt
  | fresh => rw [getElem?_append_right (Nat.le_refl _), Nat.sub_self]; rfl

theorem Step.free (h : Step cells r k cells') {c : Cell K} (hc : cells[k]? = some c) :
    c.kind = r.kind ∧ c.expiration ≤ r.start := by
  cases h with
  | reuse hk hkn hf =>
    rw [hk] at hc
    cases hc
    exact ⟨hkn, hf⟩
  | fresh => simp at hc

theorem Run.cell (h : Run init served cells) {p : Request K × ℕ} (hp : p ∈ served) :
    ∃ c, cells[p.2]? = some c ∧ c.kind = p.1.kind ∧ p.1.finish ≤ c.expiration := by
  induction h with
  | start => cases hp
  | step _ hs ih =>
    rcases mem_cons.mp hp with rfl | hp
    · exact ⟨_, hs.cell, rfl, Int.le_refl _⟩
    · obtain ⟨c, hc, hk, hle⟩ := ih hp
      obtain ⟨c', hc', hk', hle'⟩ := hs.grows hc
      exact ⟨c', hc', hk'.trans hk, Int.le_trans hle hle'⟩

/-- **Requests that share a cell are of one kind and do not overlap.** -/
theorem Run.pairwise (h : Run init served cells) :
    served.Pairwise fun p q => p.2 = q.2 → p.1.kind = q.1.kind ∧ q.1.finish ≤ p.1.start := by
  induction h with
  | start => exact List.Pairwise.nil
  | step hr hs ih =>
    refine pairwise_cons.mpr ⟨fun q hq heq => ?_, ih⟩
    obtain ⟨c, hc, hk, hle⟩ := hr.cell hq
    rw [← heq] at hc
    obtain ⟨hk', hf⟩ := hs.free hc
    exact ⟨hk'.symm.trans hk, Int.le_trans hle hf⟩

end Runs

section Widths

variable (width : K → ℕ)

/-- Where a cell begins if cells of these kinds are laid out one after the other. -/
def offset (kinds : List K) (k : ℕ) : ℕ := ((kinds.take k).map width).sum

variable {width} {kinds : List K} {kind : K} {i k : ℕ}

theorem offset_succ (hk : kinds[k]? = some kind) :
    offset width kinds (k + 1) = offset width kinds k + width kind := by
  rw [offset, take_add_one, hk, map_append, sum_append]
  simp [offset]

theorem offset_mono (h : i ≤ k) : offset width kinds i ≤ offset width kinds k := by
  obtain ⟨n, rfl⟩ := Nat.exists_eq_add_of_le h
  rw [offset, offset, take_add, map_append, sum_append]
  exact Nat.le_add_right _ _

/-- **A cell ends before the next one begins.** -/
theorem offset_le (hi : kinds[i]? = some kind) (h : i < k) :
    offset width kinds i + width kind ≤ offset width kinds k := by
  rw [← offset_succ hi]
  exact offset_mono h

theorem offset_grow {kinds' : List K} (h : kinds <+: kinds') (hk : k ≤ kinds.length) :
    offset width kinds' k = offset width kinds k := by
  obtain ⟨extra, rfl⟩ := h
  rw [offset, take_append_of_le_length hk, offset]

/-- A step leaves the kinds of the cells as they are and may add a cell. -/
theorem Step.kinds_mono {cells cells' : List (Cell K)} {r : Request K}
    (h : Step cells r k cells') : cells.map Cell.kind <+: cells'.map Cell.kind := by
  cases h with
  | reuse hk hkn _ =>
    refine ⟨[], ?_⟩
    rw [append_nil]
    refine ext_getElem? fun i => ?_
    rw [map_set, getElem?_map]
    by_cases hik : k = i
    · subst hik
      obtain ⟨hlt, -⟩ := List.getElem?_eq_some_iff.mp hk
      rw [getElem?_set_self (by rwa [length_map]), hk, map_some, hkn]
    · rw [getElem?_set_ne hik, getElem?_map]
  | fresh => exact ⟨[r.kind], by rw [map_append]; rfl⟩

end Widths

end DartSdk.SlotReuse
