import Mathlib.Data.List.Basic

/-!
# Transducers — machines that read symbols one by one

A step reads a symbol, changes the state and writes some output, or it fails.  `run` reads a list of
symbols.  A converter that takes its input in chunks does what the steps do if it does so on every
chunk (`feed_eq_run`), and then the way in which the input is cut does not matter (`feed_flatten`).
-/

namespace DartSdk.Transducer

variable {σ β ε ο : Type}

/-- The output of what is done first comes first. -/
def emit (out : List ο) (result : Except ε (σ × List ο)) : Except ε (σ × List ο) :=
  result.map fun r => (r.1, out ++ r.2)

def andThen (first : Except ε (σ × List ο)) (second : σ → Except ε (σ × List ο)) :
    Except ε (σ × List ο) :=
  match first with
  | .error e => .error e
  | .ok (s, out) => emit out (second s)

def run (step : σ → β → Except ε (σ × List ο)) (s : σ) : List β → Except ε (σ × List ο)
  | [] => .ok (s, [])
  | b :: bs => andThen (step s b) fun s => run step s bs

def feed (convert : σ → List β → Except ε (σ × List ο)) (s : σ) :
    List (List β) → Except ε (σ × List ο)
  | [] => .ok (s, [])
  | chunk :: chunks => andThen (convert s chunk) fun s => feed convert s chunks

section Sequencing

variable {s : σ} {out out' : List ο} {r : Except ε (σ × List ο)} {f g : σ → Except ε (σ × List ο)}

@[simp] theorem emit_ok : emit out (.ok (s, out') : Except ε (σ × List ο)) = .ok (s, out ++ out') :=
  rfl

@[simp] theorem emit_nil : emit [] r = r := by
  cases r <;> rfl

theorem emit_emit : emit out (emit out' r) = emit (out ++ out') r := by
  cases r with
  | error e => rfl
  | ok r => rw [emit_ok, emit_ok, emit_ok, List.append_assoc]

@[simp] theorem andThen_ok : andThen (.ok (s, out)) f = emit out (f s) := rfl

theorem andThen_emit : andThen (emit out r) f = emit out (andThen r f) := by
  cases r with
  | error e => rfl
  | ok r => exact emit_emit.symm

theorem andThen_assoc : andThen (andThen r f) g = andThen r fun s => andThen (f s) g := by
  cases r with
  | error e => rfl
  | ok r => exact andThen_emit

end Sequencing

section Runs

variable {step : σ → β → Except ε (σ × List ο)} {convert : σ → List β → Except ε (σ × List ο)}
  {s s' : σ} {out : List ο}

theorem run_append (a b : List β) :
    run step s (a ++ b) = andThen (run step s a) fun s => run step s b := by
  induction a generalizing s with
  | nil => exact emit_nil.symm
  | cons x a ih =>
    rw [List.cons_append, run, run, andThen_assoc]
    congr 1
    funext s
    exact ih

variable {I : σ → Prop}

theorem invariant_run
    (hst : ∀ s b s' out, I s → step s b = .ok (s', out) → I s') (hs : I s) {l : List β}
    (h : run step s l = .ok (s', out)) : I s' := by
  induction l generalizing s out with
  | nil =>
    cases h
    exact hs
  | cons b l ih =>
    rw [run] at h
    cases hb : step s b with
    | error e =>
      rw [hb] at h
      cases h
    | ok r =>
      obtain ⟨s₁, out₁⟩ := r
      rw [hb, andThen_ok] at h
      cases hl : run step s₁ l with
      | error e =>
        rw [hl] at h
        cases h
      | ok r =>
        rw [hl] at h
        cases h
        exact ih (hst s b s₁ out₁ hs hb) hl

/-- The states may be put into a normal form after every step if the steps do not depend on it. -/
theorem run_normal (norm : σ → σ)
    (hn : ∀ s b, (step (norm s) b).map (Prod.map norm id) = (step s b).map (Prod.map norm id))
    (s : σ) (l : List β) :
    (run step s l).map (Prod.map norm id) =
      run (fun s b => (step s b).map (Prod.map norm id)) (norm s) l := by
  induction l generalizing s with
  | nil => rfl
  | cons b l ih =>
    rw [run, run, hn]
    cases step s b with
    | error e => rfl
    | ok r =>
      obtain ⟨s', out⟩ := r
      rw [andThen_ok]
      show (emit out (run step s' l)).map (Prod.map norm id) =
        emit out (run (fun s b => (step s b).map (Prod.map norm id)) (norm s') l)
      rw [← ih s']
      cases run step s' l <;> rfl

section

variable (hst : ∀ s b s' out, I s → step s b = .ok (s', out) → I s')
  (hc : ∀ s chunk, I s → convert s chunk = run step s chunk) (hs : I s)
  (chunks : List (List β))

include hst hc hs

/-- **A converter that does what the steps do on every chunk does so on all of them.** -/
theorem feed_eq_run : feed convert s chunks = run step s chunks.flatten := by
  induction chunks generalizing s with
  | nil => rfl
  | cons chunk chunks ih =>
    rw [feed, List.flatten_cons, run_append, hc s chunk hs]
    cases hr : run step s chunk with
    | error e => rfl
    | ok r =>
      obtain ⟨_, _⟩ := r
      rw [andThen_ok, andThen_ok, ih (invariant_run hst hs hr)]

/-- Then the way in which the input is cut does not matter. -/
theorem feed_flatten : feed convert s chunks = convert s chunks.flatten := by
  rw [feed_eq_run hst hc hs, hc s chunks.flatten hs]

end

end Runs

end DartSdk.Transducer
