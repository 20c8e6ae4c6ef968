import Mathlib.Data.List.Basic

/-!
# PrefixTable — words stored by sharing prefixes with earlier words

A table stores the `k`-th word as the number of symbols it shares with the beginning of an earlier
word, a reference to that word's entry, and the symbols that follow.  The earlier word may itself be
stored by reference, so reading one back is a recursion with a length cut-off.

* `expandInto`: read an entry back, stopping at a given length.
* `Stores T words`: the table `T` stores `words`; `Stores.concat` adds a word.
* `Stores.expandInto_eq`: a stored word comes back up to the cut-off, but never cut inside the part
  it shares.
-/

namespace DartSdk.PrefixTable

open List Option

variable {α : Type}

/-- `shared` symbols of the word stored at `ref`, then `tail`. -/
structure Entry (α : Type) where
  shared : ℕ
  ref : ℕ
  tail : List α

/-- Appends the word of `e` to `acc` until `acc` has length `n`; the shared part is never cut. -/
def expandInto (T : List (Entry α)) : ℕ → Entry α → List α → ℕ → Option (List α)
  | 0, _, _, _ => none
  | depth + 1, e, acc, n =>
    if e.shared = 0 then some (acc ++ e.tail.take (n - acc.length))
    else do
      let e' ← T[e.ref]?
      let acc ← expandInto T depth e' acc e.shared
      some (acc ++ e.tail.take (n - acc.length))

/-- The word stored at `j` begins with `v`, and `v` reaches into the tail of its entry. -/
def Shares (T : List (Entry α)) (words : List (List α)) (j : ℕ) (v : List α) : Prop :=
  ∃ e w, T[j]? = some e ∧ words[j]? = some w ∧ v <+: w ∧ e.shared < v.length

/-- `e` is an entry for `w` over the table `T` of `words`. -/
structure EntryFor (T : List (Entry α)) (words : List (List α)) (e : Entry α) (w : List α) :
    Prop where
  shared_le : e.shared ≤ w.length
  tail_eq : e.tail = w.drop e.shared
  shares : e.shared ≠ 0 → Shares T words e.ref (w.take e.shared)

/-- Every entry of `T` is an entry for the word at its place, over the entries before it. -/
structure Stores (T : List (Entry α)) (words : List (List α)) : Prop where
  length_eq : T.length = words.length
  entry : ∀ k e w, T[k]? = some e → words[k]? = some w → EntryFor (T.take k) (words.take k) e w

section

variable {T : List (Entry α)} {words : List (List α)} {e : Entry α} {w v : List α} {j k : ℕ}

theorem Shares.append (h : Shares T words j v) (T' : List (Entry α)) (words' : List (List α)) :
    Shares (T ++ T') (words ++ words') j v := by
  obtain ⟨e, w, he, hw, hv, hlt⟩ := h
  refine ⟨e, w, ?_, ?_, hv, hlt⟩
  · rw [getElem?_append_left (List.getElem?_eq_some_iff.mp he).1, he]
  · rw [getElem?_append_left (List.getElem?_eq_some_iff.mp hw).1, hw]

theorem Shares.lt_length (h : Shares T words j v) : j < T.length := by
  obtain ⟨e, w, he, -⟩ := h
  exact (List.getElem?_eq_some_iff.mp he).1

theorem Stores.nil : Stores ([] : List (Entry α)) [] := ⟨rfl, by simp⟩

theorem Stores.concat (h : Stores T words) (he : EntryFor T words e w) :
    Stores (T ++ [e]) (words ++ [w]) := by
  refine ⟨by simp [h.length_eq], ?_⟩
  intro k e' w' he' hw'
  by_cases hk : k < T.length
  · have hk' : k < words.length := h.length_eq ▸ hk
    rw [getElem?_append_left hk] at he'
    rw [getElem?_append_left hk'] at hw'
    rw [take_append_of_le_length (Nat.le_of_lt hk), take_append_of_le_length (Nat.le_of_lt hk')]
    exact h.entry k e' w' he' hw'
  have hlt := (List.getElem?_eq_some_iff.mp he').1
  obtain rfl : k = T.length := by
    simp only [length_append, length_singleton] at hlt
    omega
  rw [getElem?_concat_length, some.injEq] at he'
  rw [h.length_eq, getElem?_concat_length, some.injEq] at hw'
  subst he' hw'
  rw [take_left, h.length_eq, take_left]
  exact he

/-- **Reading back.**  With the recursion as deep as the entry's place in the table. -/
theorem Stores.expandInto_eq (h : Stores T words) :
    ∀ (depth k : ℕ) {e : Entry α} {w : List α} (n : ℕ), T[k]? = some e → words[k]? = some w →
      k < depth → expandInto T depth e [] n = some (w.take (max e.shared n)) := by
  intro depth
  induction depth with
  | zero => intro k e w n _ _ hk; omega
  | succ depth ih =>
    intro k e w n he hw hk
    have hen := h.entry k e w he hw
    by_cases h0 : e.shared = 0
    · simp [expandInto, h0, hen.tail_eq]
    obtain ⟨_, w', he', hw', hp, hlt⟩ := hen.shares h0
    have hrf : e.ref < k := by
      have := (List.getElem?_eq_some_iff.mp he').1
      rw [length_take] at this
      omega
    rw [getElem?_take_of_lt hrf] at he' hw'
    have hl : (w.take e.shared).length = e.shared := length_take_of_le hen.shared_le
    -- the recursion stops inside the tail of the referenced entry
    have hr := ih e.ref e.shared he' hw' (by omega)
    rw [hl] at hlt
    rw [Nat.max_eq_right (Nat.le_of_lt hlt)] at hr
    have hws : w'.take e.shared = w.take e.shared := by
      have := prefix_iff_eq_take.mp hp
      rw [hl] at this
      exact this.symm
    rw [hws] at hr
    have hm : max e.shared n = e.shared + (n - e.shared) := by omega
    simp only [expandInto, if_neg h0, he', hr, bind_eq_bind, bind_some, hl,
      hen.tail_eq, hm, take_add]

end

end DartSdk.PrefixTable
