import Mathlib.Data.Nat.Notation
import Mathlib.Logic.Relation

/-!
# Machines that take a stream block by block

A machine gets a stream in blocks.  A round takes some elements off the block that it has; when the
block is used up the next one is taken, and when there is none the machine is told so.  It may stop
earlier.

* `Conserves`: what is observed of a machine from some state on is a function of the rest of the
  stream, however much of it is in the block;
* `Conserves.observe_of_finished`: then all that is observed in a run is a function of the stream;
* `exists_finished`: every run can be finished, if rounds that take nothing cannot go on.
-/

namespace DartSdk.Buffering

open List Option

variable {σ β ε ο : Type}

structure Machine (σ β ε : Type) where
  /-- The state, the number of elements that are taken, and the events. -/
  round : σ → List β → σ × ℕ × List ε
  stopped : σ → Bool
  finish : σ → List ε

structure Config (σ β ε : Type) where
  state : σ
  block : Option (List β)
  pending : List (List β)
  ended : Bool
  trace : List ε

inductive Step (m : Machine σ β ε) : Config σ β ε → Config σ β ε → Prop
  | take {s : σ} {b : List β} {bs : List (List β)} {t : List ε} (h : m.stopped s = false) :
    Step m ⟨s, none, b :: bs, false, t⟩ ⟨s, some b, bs, false, t⟩
  | round {s : σ} {x : β} {b : List β} {bs : List (List β)} {t : List ε}
    (h : m.stopped s = false) :
    Step m ⟨s, some (x :: b), bs, false, t⟩
      ⟨(m.round s (x :: b)).1, some ((x :: b).drop (m.round s (x :: b)).2.1), bs, false,
        t ++ (m.round s (x :: b)).2.2⟩
  | release {s : σ} {bs : List (List β)} {t : List ε} :
    Step m ⟨s, some [], bs, false, t⟩ ⟨s, none, bs, false, t⟩
  | finish {s : σ} {t : List ε} (h : m.stopped s = false) :
    Step m ⟨s, none, [], false, t⟩ ⟨s, none, [], true, t ++ m.finish s⟩

abbrev Run (m : Machine σ β ε) : Config σ β ε → Config σ β ε → Prop := Relation.ReflTransGen (Step m)

def start (s : σ) (blocks : List (List β)) : Config σ β ε := ⟨s, none, blocks, false, []⟩

def Config.Finished (m : Machine σ β ε) (c : Config σ β ε) : Prop :=
  c.ended = true ∨ m.stopped c.state = true

/-- The part of the stream that has not been taken. -/
def Config.rest (c : Config σ β ε) : List β := c.block.getD [] ++ c.pending.flatten

section Conservation

/-- `meaning s l` is what is observed from state `s` on if `l` is left of the stream. -/
structure Conserves (m : Machine σ β ε) (observe : List ε → List ο) (meaning : σ → List β → List ο) :
    Prop where
  nil : observe [] = []
  append : ∀ t t', observe (t ++ t') = observe t ++ observe t'
  stopped : ∀ s l, m.stopped s = true → meaning s l = []
  finish : ∀ s, m.stopped s = false → meaning s [] = observe (m.finish s)
  round : ∀ s x b l, m.stopped s = false →
    meaning s (x :: b ++ l) = observe (m.round s (x :: b)).2.2 ++
      meaning (m.round s (x :: b)).1 ((x :: b).drop (m.round s (x :: b)).2.1 ++ l)

variable {m : Machine σ β ε} {observe : List ε → List ο} {meaning : σ → List β → List ο}
  (h : Conserves m observe meaning) {c c' : Config σ β ε}

/-- What has been observed, and what is going to be. -/
def total (observe : List ε → List ο) (meaning : σ → List β → List ο) (c : Config σ β ε) : List ο :=
  observe c.trace ++ if c.ended then [] else meaning c.state c.rest

include h

theorem Conserves.total_step (hst : Step m c c') :
    total observe meaning c' = total observe meaning c := by
  cases hst with
  | take hs => simp [total, Config.rest]
  | round hs =>
    simp only [total, Config.rest, getD_some, Bool.false_eq_true, if_false]
    rw [h.append, h.round _ _ _ _ hs, append_assoc]
  | release => simp [total, Config.rest]
  | finish hs =>
    simp only [total, Config.rest, getD_none, flatten_nil, append_nil, if_true,
      Bool.false_eq_true, if_false]
    rw [h.append, h.finish _ hs]

theorem Conserves.total_run (hrn : Run m c c') :
    total observe meaning c' = total observe meaning c := by
  induction hrn with
  | refl => rfl
  | tail _ hs ih => rw [h.total_step hs, ih]

/-- **What is observed in a whole run is a function of the stream.** -/
theorem Conserves.observe_of_finished {s : σ} {blocks : List (List β)}
    (hrn : Run m (start s blocks) c) (hf : c.Finished m) :
    observe c.trace = meaning s blocks.flatten := by
  have hst : total observe meaning (start s blocks : Config σ β ε) = meaning s blocks.flatten := by
    simp [total, start, Config.rest, h.nil]
  rw [← hst, ← h.total_run hrn, total]
  rcases hf with he | hs
  · rw [if_pos he, append_nil]
  · rw [h.stopped _ _ hs, ite_self, append_nil]

end Conservation

section Progress

variable {m : Machine σ β ε} (rank : σ → ℕ)
  (hr : ∀ s x b, m.stopped s = false → (m.round s (x :: b)).2.1 = 0 →
    rank (m.round s (x :: b)).1 < rank s)

include hr

theorem exists_released (s : σ) (b : List β) (bs : List (List β)) (t : List ε) :
    ∃ d, Run m ⟨s, some b, bs, false, t⟩ d ∧
      (d.Finished m ∨ ∃ s' t', d = ⟨s', none, bs, false, t'⟩) := by
  cases hs : m.stopped s with
  | true => exact ⟨_, .refl, Or.inl (Or.inr hs)⟩
  | false =>
    cases b with
    | nil => exact ⟨_, .single .release, Or.inr ⟨s, t, rfl⟩⟩
    | cons x b =>
      have hl := hr s x b hs
      obtain ⟨d, hrn, hd⟩ := exists_released (m.round s (x :: b)).1
        ((x :: b).drop (m.round s (x :: b)).2.1) bs (t ++ (m.round s (x :: b)).2.2)
      exact ⟨d, .head (.round hs) hrn, hd⟩
termination_by (b.length, rank s)
decreasing_by
  rw [Prod.lex_def, length_drop]
  by_cases hn : (m.round s (x :: b)).2.1 = 0
  · exact Or.inr ⟨by simp [hn], hl hn⟩
  · refine Or.inl ?_
    simp only [length_cons]
    omega

/-- **Every run can be finished**, if a round that takes nothing goes to a state of lower rank. -/
theorem exists_finished (c : Config σ β ε) : ∃ d, Run m c d ∧ d.Finished m := by
  obtain ⟨s, block, bs, ended, t⟩ := c
  cases ended with
  | true => exact ⟨_, .refl, .inl rfl⟩
  | false =>
    -- the blocks that are left, one after the other
    have hn (s : σ) (bs : List (List β)) (t : List ε) :
        ∃ d, Run m ⟨s, none, bs, false, t⟩ d ∧ d.Finished m := by
      induction bs generalizing s t with
      | nil =>
        cases hs : m.stopped s with
        | true => exact ⟨_, .refl, .inr hs⟩
        | false => exact ⟨_, .single (.finish hs), .inl rfl⟩
      | cons b bs ih =>
        cases hs : m.stopped s with
        | true => exact ⟨_, .refl, .inr hs⟩
        | false =>
          obtain ⟨d, hrn, hd⟩ := exists_released rank hr s b bs t
          rcases hd with hd | ⟨s', t', rfl⟩
          · exact ⟨d, .head (.take hs) hrn, hd⟩
          · obtain ⟨d, hrn', hd⟩ := ih s' t'
            exact ⟨d, .head (.take hs) (hrn.trans hrn'), hd⟩
    cases block with
    | none => exact hn s bs t
    | some b =>
      obtain ⟨d, hrn, hd⟩ := exists_released rank hr s b bs t
      rcases hd with hd | ⟨s', t', rfl⟩
      · exact ⟨d, hrn, hd⟩
      · obtain ⟨d, hrn', hd⟩ := hn s' bs t'
        exact ⟨d, hrn.trans hrn', hd⟩

end Progress

end DartSdk.Buffering
