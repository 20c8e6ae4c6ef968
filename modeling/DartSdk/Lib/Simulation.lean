import Mathlib.Data.Option.Basic
import Mathlib.Data.Nat.Notation

/-!
# Machines that run in lockstep

A machine is a step function that is undefined where the machine stops.  Two machines are in
lockstep if a relation between their states is kept by every step, and they stop together.

* `run_lockstep`: a relation that every step keeps holds after any number of steps.  A condition
  on the states of the first machine may be used, if it holds along the first machine's run; and
  the second machine need not follow where the first one gives up.
-/

namespace DartSdk.Simulation

section Run

variable {S T : Type*}

section

variable (step : S → Option S)

/-- The state after `n` steps, if the machine has not stopped before. -/
def run : ℕ → S → Option S
  | 0, s => some s
  | n + 1, s => (step s).bind (run n)

@[simp] theorem run_zero (s : S) : run step 0 s = some s := rfl

theorem run_succ (n : ℕ) (s : S) : run step (n + 1) s = (step s).bind (run step n) := rfl

theorem run_add (n m : ℕ) (s : S) : run step (n + m) s = (run step n s).bind (run step m) := by
  induction n generalizing s with
  | zero => rw [Nat.zero_add, run_zero, Option.bind_some]
  | succ n ih =>
    rw [Nat.succ_add, run_succ, run_succ, Option.bind_assoc]
    cases step s with
    | none => rfl
    | some s' => exact ih s'

/-- `P` holds at every state of the run from `s`. -/
def Along (P : S → Prop) (s : S) : Prop :=
  ∀ n s', run step n s = some s' → P s'

end

variable {step : S → Option S} {P : S → Prop}

theorem Along.head {s : S} (h : Along step P s) : P s :=
  h 0 s rfl

theorem Along.tail {s s' : S} (h : Along step P s) (hs : step s = some s') : Along step P s' := by
  intro n s'' hn
  refine h (n + 1) s'' ?_
  rw [run_succ, hs]
  exact hn

/-- A machine that stops within `n` steps needs to be followed that far only. -/
theorem along_of_stops {s : S} {n : ℕ}
    (hn : run step n s = none) (h : ∀ m < n, ∀ s' ∈ run step m s, P s') : Along step P s := by
  intro m s' hm
  refine h m ?_ s' hm
  by_contra hle
  obtain ⟨k, rfl⟩ := Nat.exists_eq_add_of_le (Nat.le_of_not_lt hle)
  rw [run_add, hn] at hm
  cases hm

/-- **The run lemma.**  The machines are related after every number of steps, unless the first one
has come to a state `D` where nothing is known of its step. -/
theorem run_lockstep {step' : T → Option T} {R : S → T → Prop}
    {D : S → Prop}
    (hst : ∀ s t, R s t → P s → ¬D s → Option.Rel R (step s) (step' t))
    {s : S} {t : T} (hR : R s t) (hP : Along step P s) (n : ℕ) :
    Option.Rel R (run step n s) (run step' n t) ∨ ∃ m < n, ∃ s', run step m s = some s' ∧ D s' := by
  induction n generalizing s t with
  | zero => exact .inl (Option.Rel.some hR)
  | succ n ih =>
    by_cases hD : D s
    · exact .inr ⟨0, Nat.succ_pos n, s, rfl, hD⟩
    have hn := hst s t hR hP.head hD
    rw [run_succ, run_succ]
    cases hs : step s with
    | none =>
      rw [hs] at hn
      cases ht : step' t with
      | none => exact .inl Option.Rel.none
      | some t' =>
        rw [ht] at hn
        cases hn
    | some s' =>
      rw [hs] at hn
      cases ht : step' t with
      | none =>
        rw [ht] at hn
        cases hn
      | some t' =>
        rw [ht] at hn
        cases hn with
        | some hR' =>
          rcases ih hR' (hP.tail hs) with hr | ⟨m, hm, s'', hrun, hD'⟩
          · exact .inl hr
          · refine .inr ⟨m + 1, Nat.succ_lt_succ hm, s'', ?_, hD'⟩
            rw [run_succ, hs]
            exact hrun

end Run

end DartSdk.Simulation
