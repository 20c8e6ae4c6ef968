import Mathlib.Data.List.Chain

/-!
# Dominance and the values of definitions along a run

Paths and runs are lists with the last node first.

* `Dominates.not_mem`: after its last visit to a block that dominates the end, a path does not come
  to the blocks that dominate that block;
* `Program.IsRun.unchanged`: so the definitions there keep the values they had at that visit;
* `Program.IsRun.counting`: the counters of a loop have moved equally far from the values they
  started with.
-/

namespace DartSdk.Dominance

open List Option

section Paths

variable {N : Type} (edge : N → N → Prop) (entry : N)

structure IsPath (p : List N) : Prop where
  chain : p.IsChain fun b a => edge a b
  start : p.getLast? = some entry

/-- Every path to `b` goes through `a`. -/
def Dominates (a b : N) : Prop :=
  ∀ p, IsPath edge entry (b :: p) → a ∈ b :: p

variable {edge entry} {a b c : N} {p q : List N}

theorem dominates_entry (b : N) : Dominates edge entry entry b :=
  fun _ h => mem_of_getLast? h.start

theorem IsPath.suffix (h : IsPath edge entry (q ++ a :: p)) : IsPath edge entry (a :: p) where
  chain := h.chain.right_of_append
  start := by
    rw [← h.start, getLast?_append_cons]

theorem IsPath.splice {p' : List N} (h : IsPath edge entry (q ++ a :: p))
    (h' : IsPath edge entry (a :: p')) : IsPath edge entry (q ++ a :: p') where
  chain := isChain_split.mpr ⟨(isChain_split.mp h.chain).1, h'.chain⟩
  start := by
    rw [← h'.start, getLast?_append_cons]

theorem IsPath.exists_first (h : IsPath edge entry (b :: p)) :
    ∃ p', IsPath edge entry (b :: p') ∧ b ∉ p' := by
  induction hn : p.length using Nat.strong_induction_on generalizing p with
  | _ n ih =>
    by_cases hb : b ∈ p
    · obtain ⟨p₁, p₂, rfl⟩ := append_of_mem hb
      refine ih p₂.length ?_ (IsPath.suffix (q := b :: p₁) h) rfl
      rw [← hn, length_append, length_cons]
      omega
    · exact ⟨p, h, hb⟩

/-- **After its last visit to a dominator, a path does not come to what dominates that.** -/
theorem Dominates.not_mem (hab : Dominates edge entry a b) (hne : a ≠ b)
    (hbc : Dominates edge entry b c) (h : IsPath edge entry (q ++ b :: p))
    (hc : (q ++ b :: p).head? = some c) (hq : b ∉ q) : a ∉ q := by
  intro ha
  obtain ⟨q₁, _, rfl⟩ := append_of_mem ha
  -- a path to `a` that has not been to `b`
  obtain ⟨p', hp', hbp'⟩ := h.suffix.exists_first
  have ha' : a ∈ p' := (mem_cons.mp (hab p' hp')).resolve_left hne
  obtain ⟨p₁, p₂, rfl⟩ := append_of_mem ha'
  have hpa : IsPath edge entry (a :: p₂) := IsPath.suffix (q := b :: p₁) hp'
  rw [append_assoc, cons_append] at h hc
  have hp := h.splice hpa
  have hb : b ∉ q₁ ++ a :: p₂ := by
    intro hb
    rcases mem_append.mp hb with hb | hb
    · exact hq (mem_append_left _ hb)
    · exact hbp' (mem_append_right _ hb)
  cases q₁ with
  | nil =>
    cases hc
    exact hb (hbc p₂ hp)
  | cons n q₁ =>
    cases hc
    exact hb (hbc _ hp)

end Paths

section Runs

variable {N V : Type}

/-- A program in SSA form.  A counter starts with the value of a definition whenever its loop is
entered through the pre-header, and is incremented whenever the loop is repeated. -/
structure Program (N V : Type) where
  edge : N → N → Prop
  entry : N
  block : V → N
  preHeader : N → N
  start : V → Option V

/-- A block and the values of the definitions at its end. -/
abbrev State (N V : Type) := N × (V → ℤ)

structure Program.Step [DecidableEq N] (P : Program N V) (s s' : State N V) : Prop where
  edge : P.edge s.1 s'.1
  frame : ∀ {d}, P.block d ≠ s'.1 → s'.2 d = s.2 d
  counter : ∀ {x x₀}, P.start x = some x₀ → P.block x = s'.1 →
    s'.2 x = if s.1 = P.preHeader s'.1 then s.2 x₀ else s.2 x + 1

/-- A run from the entry. -/
structure Program.IsRun [DecidableEq N] (P : Program N V) (run : List (State N V)) : Prop where
  chain : run.IsChain fun s' s => P.Step s s'
  start : (run.map Prod.fst).getLast? = some P.entry

def Program.Dominates (P : Program N V) (a b : N) : Prop :=
  Dominance.Dominates P.edge P.entry a b

variable [DecidableEq N] {P : Program N V} {run later earlier : List (State N V)} {a b c : N}
  {s t : State N V}

theorem Program.IsRun.isPath (h : P.IsRun run) : IsPath P.edge P.entry (run.map Prod.fst) where
  chain := by
    rw [isChain_map]
    exact h.chain.imp fun _ _ hs => hs.edge
  start := h.start

/-- **What dominates a dominator of the end has the value it had there.** -/
theorem Program.IsRun.unchanged {d : V} (h : P.IsRun (later ++ s :: earlier))
    (ht : (later ++ s :: earlier).head? = some t) (hl : s.1 ∉ later.map Prod.fst)
    (hd : P.Dominates (P.block d) s.1) (hs : P.Dominates s.1 t.1) : t.2 d = s.2 d := by
  have hn : P.block d ∉ later.map Prod.fst := by
    by_cases hne : P.block d = s.1
    · rwa [hne]
    have hp := h.isPath
    rw [map_append, map_cons] at hp
    refine Dominates.not_mem hd hne hs hp ?_ hl
    have hh := congrArg (Option.map Prod.fst) ht
    rwa [← head?_map, map_append, map_cons] at hh
  have hc := h.chain
  clear h hl hs
  -- no step after the visit is into the block of `d`
  induction later generalizing t with
  | nil =>
    cases ht
    rfl
  | cons _ later ih =>
    cases ht
    rw [map_cons, mem_cons, not_or] at hn
    rw [cons_append, isChain_cons] at hc
    cases hh : (later ++ s :: earlier).head? with
    | none =>
      rw [head?_eq_none_iff] at hh
      simp at hh
    | some u =>
      rw [← ih hh hn.2 hc.2]
      exact (hc.1 u hh).frame hn.1

/-- **All counters of a loop have been incremented equally often** since the last visit to its
pre-header. -/
theorem Program.IsRun.counting {h : N} (hr : P.IsRun (later ++ s :: earlier))
    (ht : (later ++ s :: earlier).head? = some t) (hl : s.1 ∉ later.map Prod.fst)
    (hne : later ≠ []) (hs : s.1 = P.preHeader h) (hg : ∀ n, P.edge s.1 n → n = h) :
    ∃ k : ℕ, ∀ x x₀, P.start x = some x₀ → P.block x = h → t.2 x = s.2 x₀ + k := by
  have hc := hr.chain
  clear hr
  induction later generalizing t with
  | nil => exact absurd rfl hne
  | cons t' later ih =>
    obtain rfl : t' = t := some.inj ht
    rw [map_cons, mem_cons, not_or] at hl
    rw [cons_append, isChain_cons] at hc
    cases later with
    | nil =>
      -- the loop is entered
      have hst := hc.1 s rfl
      have hh := hg _ hst.edge
      refine ⟨0, fun x x₀ hx hb => ?_⟩
      rw [hst.counter hx (hb.trans hh.symm), hh, if_pos hs, Int.natCast_zero, Int.add_zero]
    | cons u later =>
      have hst := hc.1 u rfl
      obtain ⟨k, hk⟩ := ih rfl hl.2 (cons_ne_nil _ _) hc.2
      by_cases hh : t'.1 = h
      · -- it is repeated
        have hu : u.1 ≠ P.preHeader t'.1 := by
          rw [hh, ← hs]
          exact fun heq => hl.2 (heq ▸ mem_cons_self)
        refine ⟨k + 1, fun x x₀ hx hb => ?_⟩
        rw [hst.counter hx (hb.trans hh.symm), if_neg hu, hk x x₀ hx hb]
        push_cast
        omega
      · refine ⟨k, fun x x₀ hx hb => ?_⟩
        rw [hst.frame fun heq => hh (heq.symm.trans hb), hk x x₀ hx hb]

/-- A run to a block that is dominated has a last visit to the dominator. -/
theorem Program.IsRun.exists_last (h : P.IsRun (t :: run)) (hb : P.Dominates b t.1) :
    ∃ later s earlier, t :: run = later ++ s :: earlier ∧ s.1 = b ∧ b ∉ later.map Prod.fst := by
  have hm : b ∈ (t :: run).map Prod.fst := hb _ h.isPath
  generalize t :: run = states at hm
  induction states with
  | nil => cases hm
  | cons u states ih =>
    by_cases hu : u.1 = b
    · exact ⟨[], u, states, rfl, hu, not_mem_nil⟩
    rw [map_cons, mem_cons] at hm
    obtain ⟨later, s, earlier, rfl, hs, hn⟩ := ih (hm.resolve_left (Ne.symm hu))
    refine ⟨u :: later, s, earlier, rfl, hs, ?_⟩
    rw [map_cons, mem_cons]
    rintro (heq | hm)
    · exact hu heq.symm
    · exact hn hm

end Runs

end DartSdk.Dominance
