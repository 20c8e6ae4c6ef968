import Mathlib.Data.List.GetD
import Mathlib.Tactic.SplitIfs

/-!
# Writing an entry of an array

Arrays are lists, with a default for what is beyond their end.
-/

namespace DartSdk.Entries

open List

theorem getD_set {α : Type} {l : List α} {i : ℕ} (hi : i < l.length) (a d : α) (j : ℕ) :
    (l.set i a).getD j d = if i = j then a else l.getD j d := by
  rw [getD_eq_getElem?_getD, getElem?_set, getD_eq_getElem?_getD]
  split_ifs
  · rfl
  · rfl

end DartSdk.Entries
