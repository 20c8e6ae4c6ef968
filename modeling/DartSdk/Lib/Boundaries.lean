import Mathlib.Data.Nat.Notation
import Mathlib.Tactic.ByContra

/-!
# Ascending boundaries

Boundaries `r s < … < r e` cut the numbers into regions.  `Region r s e c k` says that `c` lies above
exactly `k` of them.

* `Region.tail`, `Region.restrict`, `Region.drop`, `Region.cut`: the region of the same number among
  some of the boundaries.
-/

namespace DartSdk.Boundaries

def Ascending (r : ℕ → ℕ) (s e : ℕ) : Prop := ∀ i j, s ≤ i → i < j → j ≤ e → r i < r j

structure Region (r : ℕ → ℕ) (s e c k : ℕ) : Prop where
  le : s + k ≤ e + 1
  below : ∀ i, s ≤ i → i < s + k → r i ≤ c
  above : ∀ i, s + k ≤ i → i ≤ e → c < r i

variable {r r' : ℕ → ℕ} {s e c k m : ℕ}

theorem Ascending.mono {s' e' : ℕ} (h : Ascending r s e) (hs : s ≤ s') (he : e' ≤ e) :
    Ascending r s' e' :=
  fun i j hi hij hj => h i j (Nat.le_trans hs hi) hij (Nat.le_trans hj he)

theorem Ascending.le (h : Ascending r s e) {i j : ℕ} (hi : s ≤ i) (hij : i ≤ j) (hj : j ≤ e) :
    r i ≤ r j := by
  rcases Nat.eq_or_lt_of_le hij with rfl | hlt
  · exact Nat.le_refl _
  · exact Nat.le_of_lt (h i j hi hlt hj)

theorem Ascending.congr (h : Ascending r s e) (heq : ∀ i, s ≤ i → i ≤ e → r' i = r i) :
    Ascending r' s e := by
  intro i j hi hij hj
  rw [heq i hi (by omega), heq j (by omega) hj]
  exact h i j hi hij hj

theorem Region.congr (h : Region r s e c k) (heq : ∀ i, s ≤ i → i ≤ e → r' i = r i) :
    Region r' s e c k where
  le := h.le
  below i hi hlt := by
    have := h.le
    rw [heq i hi (by omega)]
    exact h.below i hi hlt
  above i hi hie := by
    rw [heq i (by omega) hie]
    exact h.above i hi hie

theorem Region.lt_iff (h : Region r s e c k) (hs : s ≤ m) (hm : m ≤ e) : c < r m ↔ s + k ≤ m := by
  refine ⟨fun hc => ?_, fun hk => h.above m hk hm⟩
  by_contra hk
  have := h.below m hs (by omega)
  omega

theorem Region.tail (h : Region r s e c (k + 1)) : Region r (s + 1) e c k where
  le := by have := h.le; omega
  below i hi hlt := h.below i (by omega) (by omega)
  above i hi hie := h.above i (by omega) hie

theorem Region.restrict (h : Region r s e c k) (hm : m ≤ e) (hs : s ≤ m + 1)
    (hc : ∀ i, m < i → i ≤ e → c < r i) : Region r s m c k where
  le := by
    by_contra hk
    have hle := h.le
    have := (h.lt_iff hs (by omega)).1 (hc (m + 1) (by omega) (by omega))
    omega
  below := h.below
  above i hi him := h.above i hi (by omega)

theorem Region.drop (h : Region r s e c k) (hs : s ≤ m) (hm : m ≤ e + 1)
    (hc : ∀ i, s ≤ i → i < m → r i ≤ c) : ∃ k', k = m - s + k' ∧ Region r m e c k' := by
  have hk : m ≤ s + k := by
    by_contra hlt
    have hl := hc (s + k) (by omega) (by omega)
    exact Nat.not_lt_of_le hl (h.above (s + k) (by omega) (by omega))
  refine ⟨s + k - m, by omega, ?_, fun i hi hlt => h.below i (by omega) (by omega),
    fun i hi hie => h.above i (by omega) hie⟩
  have := h.le
  omega

/-- Without two adjacent boundaries that the number does not lie between: those before them move up
by one place, those after them down. -/
theorem Region.cut (h : Region r s e c k) (hs : s ≤ m) (hm : m + 1 ≤ e)
    (hr : ∀ i, s < i → i ≤ m → r' i = r (i - 1)) (hr' : ∀ i, m < i → i < e → r' i = r (i + 1))
    (hc : k ≠ m + 1 - s) : ∃ k', k' % 2 = k % 2 ∧ Region r' (s + 1) (e - 1) c k' := by
  have hle := h.le
  by_cases hk : s + k ≤ m
  · refine ⟨k, rfl, by omega, fun i hi hlt => ?_, fun i hi hie => ?_⟩
    · rw [hr i (by omega) (by omega)]
      exact h.below (i - 1) (by omega) (by omega)
    · by_cases him : i ≤ m
      · rw [hr i (by omega) him]
        exact h.above (i - 1) (by omega) (by omega)
      · rw [hr' i (by omega) (by omega)]
        exact h.above (i + 1) (by omega) (by omega)
  · refine ⟨k - 2, by omega, by omega, fun i hi hlt => ?_, fun i hi hie => ?_⟩
    · by_cases him : i ≤ m
      · rw [hr i (by omega) him]
        exact h.below (i - 1) (by omega) (by omega)
      · rw [hr' i (by omega) (by omega)]
        exact h.below (i + 1) (by omega) (by omega)
    · rw [hr' i (by omega) (by omega)]
      exact h.above (i + 1) (by omega) (by omega)

end DartSdk.Boundaries
