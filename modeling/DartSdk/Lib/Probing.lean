import Mathlib.Data.Nat.Find
import Mathlib.Tactic.Common

/-!
# Linear probing over a cyclic array

The entries of an open-addressing table are numbered `0, …, n - 1`, and a search that starts at
the home position `h` visits `probe n h 0`, `probe n h 1`, … in this order, wrapping around.  A
search stops at the first *free* entry.

* `exists_probe`: every entry is visited within `n` steps.
* `exists_firstFree`: with one free entry left, every search has a first free entry.
* `Reaches`: an entry that a search from `h` gets to before it stops; `Reaches.mono` says that
  taking entries away from the free ones keeps it.
* `FirstFree.not_found`: a search that ends at a free entry has met every entry that it gets to.
-/

namespace DartSdk.Probing

/-- The entry a search from `h` visits after `d` steps. -/
def probe (n h d : ℕ) : ℕ := (h + d) % n

theorem probe_lt {n : ℕ} (hn : 0 < n) (h d : ℕ) : probe n h d < n :=
  Nat.mod_lt _ hn

theorem probe_succ (n h d : ℕ) : (probe n h d + 1) % n = probe n h (d + 1) := by
  simp [probe, Nat.add_assoc]

theorem exists_probe {n i : ℕ} (h : ℕ) (hi : i < n) : ∃ d < n, probe n h d = i := by
  have hn : 0 < n := by omega
  have hh : h % n < n := Nat.mod_lt _ hn
  -- go forward from the home position, around the end of the array if need be
  rcases Nat.lt_or_ge i (h % n) with hlt | hge
  · refine ⟨i + n - h % n, by omega, ?_⟩
    have hs : h % n + (i + n - h % n) = i + n := by omega
    rw [probe, ← Nat.mod_add_mod, hs, Nat.add_mod_right, Nat.mod_eq_of_lt hi]
  · refine ⟨i - h % n, by omega, ?_⟩
    have hs : h % n + (i - h % n) = i := by omega
    rw [probe, ← Nat.mod_add_mod, hs, Nat.mod_eq_of_lt hi]

section Search

variable {free free' : ℕ → Prop} {n h i D : ℕ}

/-- A search from `h` gets to entry `i` without meeting a free entry before it. -/
def Reaches (free : ℕ → Prop) (n h i : ℕ) : Prop :=
  ∃ d, probe n h d = i ∧ ∀ c < d, ¬ free (probe n h c)

theorem Reaches.mono (hr : Reaches free n h i) (hf : ∀ j, free' j → free j) :
    Reaches free' n h i := by
  obtain ⟨d, hd, hc⟩ := hr
  exact ⟨d, hd, fun c hcd hfr => hc c hcd (hf _ hfr)⟩

/-- The search from `h` stops after `D` steps. -/
structure FirstFree (free : ℕ → Prop) (n h D : ℕ) : Prop where
  lt : D < n
  free_at : free (probe n h D)
  before : ∀ c < D, ¬ free (probe n h c)

theorem exists_firstFree (h : ℕ) (hf : ∃ j < n, free j) : ∃ D, FirstFree free n h D := by
  classical
  obtain ⟨j, hj, hfj⟩ := hf
  obtain ⟨d, hd, rfl⟩ := exists_probe h hj
  have hex : ∃ d, free (probe n h d) := ⟨d, hfj⟩
  exact ⟨Nat.find hex, Nat.lt_of_le_of_lt (Nat.find_min' hex hfj) hd, Nat.find_spec hex,
    fun c hc => Nat.find_min hex hc⟩

theorem FirstFree.reaches (hD : FirstFree free n h D) {d : ℕ} (hd : d ≤ D) :
    Reaches free n h (probe n h d) :=
  ⟨d, rfl, fun c hc => hD.before c (by omega)⟩

theorem FirstFree.not_found {found : ℕ → Prop} (hD : FirstFree (fun j => free j ∨ found j) n h D)
    (hf : free (probe n h D)) (hr : Reaches free n h i) (hi : ¬ free i) : ¬ found i := by
  obtain ⟨d, rfl, hc⟩ := hr
  rcases Nat.lt_trichotomy d D with hlt | rfl | hgt
  · exact fun hfn => hD.before d hlt (.inr hfn)
  · exact absurd hf hi
  · exact absurd hf (hc D hgt)

end Search

end DartSdk.Probing
