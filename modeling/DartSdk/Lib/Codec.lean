import Mathlib.Data.List.Basic

/-!
# Codec — sequential readers over a list of symbols

A `Reader` consumes symbols from a position of a fixed list and fails when it would read past the
end.  `Reads m bs a` is the round-trip judgement: wherever the symbols `bs` stand in a list, `m`
started at their first symbol returns `a` and stops right after them, whatever stands before and
behind.  Formats are verified by composing `Reads` along `pure`, `next` and `bind`.  `Forward n m`
says that `m` consumes at least `n` symbols, which is what a loop over readers needs to terminate.
-/

namespace DartSdk.Codec

open List Option

/-- A position in a list of symbols. -/
structure Cursor (β : Type) where
  data : List β
  pos : ℕ
deriving DecidableEq

/-- Computations that consume symbols. -/
abbrev Reader (β : Type) := StateT (Cursor β) Option

variable {α β γ : Type}

def next : Reader β β := fun c => (c.data[c.pos]?).map (fun b => (b, ⟨c.data, c.pos + 1⟩))

/-- `m` reads exactly the symbols `bs`, in every context, and returns `a`. -/
def Reads (m : Reader β α) (bs : List β) (a : α) : Prop :=
  ∀ pre post : List β, m ⟨pre ++ (bs ++ post), pre.length⟩ =
    some (a, ⟨pre ++ (bs ++ post), pre.length + bs.length⟩)

theorem next_eq_some {c : Cursor β} {b : β} (h : c.data[c.pos]? = some b) :
    next c = some (b, ⟨c.data, c.pos + 1⟩) := by
  simp [next, h]

theorem next_eq_none {c : Cursor β} (h : c.data[c.pos]? = none) : next c = none := by
  simp [next, h]

theorem bind_apply (m : Reader β α) (k : α → Reader β γ) (c : Cursor β) :
    (m >>= k) c = (m c).bind (fun r => k r.1 r.2) := rfl

theorem Reads.pure (a : α) : Reads (pure a : Reader β α) [] a := fun _ _ => rfl

theorem Reads.next (b : β) : Reads (β := β) next [b] b := by
  intro pre post
  exact next_eq_some (by simp)

variable {m : Reader β α} {bs : List β}

/-- **Sequencing**: the symbols of the first reader, then those of its continuation. -/
theorem Reads.bind {k : α → Reader β γ} {bs' : List β} {a : α} {c : γ}
    (h : Reads m bs a) (h' : Reads (k a) bs' c) : Reads (m >>= k) (bs ++ bs') c := by
  intro pre post
  have h1 := h pre (bs' ++ post)
  have h2 := h' (pre ++ bs) post
  simp only [append_assoc, length_append] at h2 ⊢
  rw [bind_apply, h1, bind_some, h2, Nat.add_assoc]

theorem Reads.map {a : α} (h : Reads m bs a) (f : α → γ) :
    Reads (m >>= fun x => Pure.pure (f x)) bs (f a) := by
  have h' := Reads.bind (k := fun x => Pure.pure (f x)) h (Reads.pure (f a))
  rwa [append_nil] at h'

theorem Reads.next_bind {k : β → Reader β γ} {b : β} {c : γ} (h : Reads (k b) bs c) :
    Reads (Codec.next >>= k) (b :: bs) c :=
  (Reads.next b).bind h

theorem Reads.run {a : α} (h : Reads m bs a) : m ⟨bs, 0⟩ = some (a, ⟨bs, bs.length⟩) := by
  simpa using h [] []

/-! ## Progress -/

/-- `m` leaves the symbols alone and consumes at least `n` of them. -/
def Forward (n : ℕ) (m : Reader β α) : Prop :=
  ∀ c a c', m c = some (a, c') → c'.data = c.data ∧ c.pos + n ≤ c'.pos

theorem Forward.pure (a : α) : Forward 0 (Pure.pure a : Reader β α) := by
  intro c _ c' h
  obtain ⟨-, rfl⟩ := Prod.mk.inj (some.inj h)
  exact ⟨rfl, Nat.le_refl _⟩

theorem Forward.mono {n n' : ℕ} (h : Forward n m) (hn : n' ≤ n) : Forward n' m := by
  intro c a c' hm
  obtain ⟨h1, h2⟩ := h c a c' hm
  exact ⟨h1, by omega⟩

theorem Forward.bind {n j : ℕ} {k : α → Reader β γ} (h : Forward n m)
    (hk : ∀ a, Forward j (k a)) : Forward (n + j) (m >>= k) := by
  intro c a c' hm
  rw [bind_apply, bind_eq_some_iff] at hm
  obtain ⟨⟨b, c1⟩, h1, h2⟩ := hm
  obtain ⟨hd1, hp1⟩ := h c b c1 h1
  obtain ⟨hd2, hp2⟩ := hk b c1 a c' h2
  exact ⟨hd2.trans hd1, by omega⟩

theorem Forward.next_bind {k : β → Reader β γ} (hk : ∀ b, Forward 0 (k b)) :
    Forward 1 (Codec.next >>= k) := by
  refine Forward.bind ?_ hk
  intro c a c' h
  obtain ⟨b, -, hb⟩ := map_eq_some_iff.mp h
  obtain ⟨-, rfl⟩ := Prod.mk.inj hb
  exact ⟨rfl, Nat.le_refl _⟩

end DartSdk.Codec
