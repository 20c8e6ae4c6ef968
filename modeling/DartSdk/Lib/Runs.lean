import Mathlib.Algebra.BigOperators.Group.List.Basic
import Mathlib.Algebra.GroupWithZero.Nat
import Mathlib.Data.List.TakeWhile

/-!
# Runs — the maximal runs of a predicate in a list

`runs p l` cuts out of `l` the stretches of consecutive elements that satisfy `p`.

* `mem_runs_iff`: these are the maximal ones, in the sense that the elements next to them, if there
  are any, do not satisfy `p`.
* `sum_runs`: a measure summed over the runs and over the elements outside is its sum over `l`.
-/

namespace DartSdk.Runs

open List Option

variable {α : Type} {p : α → Bool}

def runs (p : α → Bool) : List α → List (List α)
  | [] => []
  | a :: l => if p a then (a :: l.takeWhile p) :: runs p (l.dropWhile p) else runs p l
termination_by l => l.length
decreasing_by
  · have := (dropWhile_suffix p (l := l)).length_le
    simp only [length_cons]
    omega
  · simp

/-- `r` is a stretch of `l` whose elements satisfy `p` and whose neighbours do not. -/
def IsMaximalRun (p : α → Bool) (l r : List α) : Prop :=
  ∃ pre post, l = pre ++ (r ++ post) ∧ r ≠ [] ∧ (∀ a ∈ r, p a = true) ∧
    (∀ a ∈ pre.getLast?, p a = false) ∧ ∀ a ∈ post.head?, p a = false

theorem runs_cons_pos {a : α} (h : p a) (l : List α) :
    runs p (a :: l) = (a :: l.takeWhile p) :: runs p (l.dropWhile p) := by
  rw [runs, if_pos h]

theorem runs_cons_neg {a : α} (h : p a = false) (l : List α) : runs p (a :: l) = runs p l := by
  rw [runs, if_neg (by simp [h])]

theorem head?_dropWhile {l : List α} {a : α} (h : a ∈ (l.dropWhile p).head?) : p a = false := by
  have := head?_dropWhile_not p l
  rw [mem_def.mp h] at this
  simpa using this

theorem isMaximalRun_cons_neg {a : α} (h : p a = false) {l r : List α} :
    IsMaximalRun p (a :: l) r ↔ IsMaximalRun p l r := by
  constructor
  · rintro ⟨pre, post, heq, hne, hr, hpre, hpost⟩
    cases pre with
    | nil =>
      obtain ⟨b, _, rfl⟩ := exists_cons_of_ne_nil hne
      obtain ⟨rfl, -⟩ := List.cons.inj heq
      rw [hr a (by simp)] at h
      cases h
    | cons b pre =>
      obtain ⟨rfl, hl⟩ := List.cons.inj heq
      refine ⟨pre, post, hl, hne, hr, fun x hx => ?_, hpost⟩
      cases pre with
      | nil => cases hx
      | cons c pre => exact hpre x (by rwa [getLast?_cons_cons])
  · rintro ⟨pre, post, rfl, hne, hr, hpre, hpost⟩
    refine ⟨a :: pre, post, rfl, hne, hr, fun x hx => ?_, hpost⟩
    cases pre with
    | nil =>
      rw [getLast?_singleton, mem_some_iff] at hx
      rwa [← hx]
    | cons c pre => exact hpre x (by rwa [getLast?_cons_cons] at hx)

theorem takeWhile_append_stop {r post : List α} (hr : ∀ a ∈ r, p a)
    (hp : ∀ a ∈ post.head?, p a = false) : (r ++ post).takeWhile p = r := by
  rw [takeWhile_append_of_pos hr]
  cases post with
  | nil => simp
  | cons a post => simp [hp a (by simp)]

theorem isMaximalRun_append {r₀ rest r : List α} (hne : r₀ ≠ []) (hr₀ : ∀ a ∈ r₀, p a)
    (hrs : ∀ a ∈ rest.head?, p a = false) :
    IsMaximalRun p (r₀ ++ rest) r ↔ r = r₀ ∨ IsMaximalRun p rest r := by
  constructor
  · rintro ⟨pre, post, heq, hrne, hr, hpre, hpost⟩
    cases hp : pre.getLast? with
    | none =>
      left
      obtain rfl := getLast?_eq_none_iff.mp hp
      rw [nil_append] at heq
      rw [← takeWhile_append_stop hr hpost, ← heq, takeWhile_append_stop hr₀ hrs]
    | some x =>
      right
      have hx := hpre x hp
      rcases append_eq_append_iff.mp heq with ⟨as, rfl, rfl⟩ | ⟨_, rfl, -⟩
      · refine ⟨as, post, rfl, hrne, hr, fun y hy => ?_, hpost⟩
        exact hpre y (by rw [getLast?_append, mem_def.mp hy]; rfl)
      · rw [hr₀ x (mem_append_left _ (mem_of_getLast? hp))] at hx
        cases hx
  · rintro (rfl | ⟨pre, post, rfl, hrne, hr, hpre, hpost⟩)
    · exact ⟨[], rest, rfl, hne, hr₀, by simp, hrs⟩
    refine ⟨r₀ ++ pre, post, by rw [append_assoc], hrne, hr, fun x hx => ?_, hpost⟩
    cases pre with
    | nil =>
      -- the rest would begin with an element of the run
      obtain ⟨b, _, rfl⟩ := exists_cons_of_ne_nil hrne
      have h1 := hrs b (by simp)
      rw [hr b (by simp)] at h1
      cases h1
    | cons c pre =>
      rw [getLast?_append_of_ne_nil _ (by simp)] at hx
      exact hpre x hx

/-- **`runs` finds exactly the maximal runs.** -/
theorem mem_runs_iff {l r : List α} : r ∈ runs p l ↔ IsMaximalRun p l r := by
  induction l using runs.induct p with
  | case1 =>
    rw [runs]
    constructor
    · intro h
      cases h
    · rintro ⟨_, _, heq, hne, -⟩
      simp only [nil_eq, append_eq_nil_iff] at heq
      exact absurd heq.2.1 hne
  | case2 a l h ih =>
    have hl : a :: l = (a :: l.takeWhile p) ++ l.dropWhile p := by
      rw [cons_append, takeWhile_append_dropWhile]
    rw [runs_cons_pos h, mem_cons, ih, hl]
    refine (isMaximalRun_append (by simp) ?_ (fun x hx => head?_dropWhile hx)).symm
    intro x hx
    rcases mem_cons.mp hx with rfl | hx
    · exact h
    · exact mem_takeWhile_imp hx
  | case3 a l h ih =>
    have h' : p a = false := by simpa using h
    rw [runs_cons_neg h', ih, isMaximalRun_cons_neg h']

theorem sum_runs (f : α → ℕ) (l : List α) :
    ((runs p l).map (fun r => (r.map f).sum)).sum + ((l.filter (fun a => !p a)).map f).sum =
      (l.map f).sum := by
  induction l using runs.induct p with
  | case1 => simp [runs]
  | case2 a l h ih =>
    have hl : (l.map f).sum = ((l.takeWhile p).map f).sum + ((l.dropWhile p).map f).sum := by
      rw [← sum_append, ← map_append, takeWhile_append_dropWhile]
    have hf : l.filter (fun a => !p a) = (l.dropWhile p).filter (fun a => !p a) := by
      conv_lhs => rw [← takeWhile_append_dropWhile (p := p) (l := l), filter_append]
      rw [filter_eq_nil_iff.mpr (fun x hx => by simp [mem_takeWhile_imp hx]), nil_append]
    rw [runs_cons_pos h]
    simp only [map_cons, sum_cons, filter_cons, h, Bool.not_true, Bool.false_eq_true, if_false]
    rw [hf, hl]
    omega
  | case3 a l h ih =>
    have h' : p a = false := by simpa using h
    rw [runs_cons_neg h']
    simp only [filter_cons, h', Bool.not_false, if_true, map_cons, sum_cons]
    omega

end DartSdk.Runs
