import Mathlib.Logic.Basic

/-!
# Throwing — procedures that change a state and may throw

A procedure keeps the changes that it made before it threw.  `Ensures m s Q E` says that from `s` the
procedure `m` returns with `Q` or throws with `E`; there is a rule for every way to put procedures
together.  `Returns x Q E` is the same for a result by itself, without a state that outlives an
exception.
-/

namespace DartSdk.Throwing

variable {ε σ α β : Type} {s : σ}

/-- From `s`, `m` returns with `Q` or throws with `E`. -/
def Ensures (m : EStateM ε σ α) (s : σ) (Q : α → σ → Prop) (E : ε → σ → Prop) : Prop :=
  match m.run s with
  | .ok a s' => Q a s'
  | .error e s' => E e s'

/-- The state that `m` leaves behind, whether it throws or not. -/
def final (m : EStateM ε σ α) (s : σ) : σ :=
  match m.run s with
  | .ok _ s' => s'
  | .error _ s' => s'

variable {m : EStateM ε σ α} {Q Q' : α → σ → Prop} {E E' : ε → σ → Prop}

theorem Ensures.mono (h : Ensures m s Q E) (hQ : ∀ a s', Q a s' → Q' a s')
    (hE : ∀ e s', E e s' → E' e s') : Ensures m s Q' E' := by
  unfold Ensures at h ⊢
  split
  next a s' hr =>
    rw [hr] at h
    exact hQ a s' h
  next e s' hr =>
    rw [hr] at h
    exact hE e s' h

theorem Ensures.final {P : σ → Prop} (h : Ensures m s (fun _ => P) fun _ => P) : P (final m s) := by
  unfold Ensures at h
  unfold Throwing.final
  split
  next a s' hr => rwa [hr] at h
  next e s' hr => rwa [hr] at h

theorem ensures_pure {a : α} (h : Q a s) : Ensures (pure a) s Q E := h

theorem ensures_throw {e : ε} (h : E e s) : Ensures (throw e) s Q E := h

theorem ensures_modify {f : σ → σ} {Q : Unit → σ → Prop} (h : Q () (f s)) :
    Ensures (modify f) s Q E := h

variable {Q : β → σ → Prop}

theorem Ensures.bind {f : α → EStateM ε σ β} {R : α → σ → Prop}
    (hm : Ensures m s R E) (hf : ∀ a s', R a s' → Ensures (f a) s' Q E) :
    Ensures (m >>= f) s Q E := by
  unfold Ensures at hm
  unfold Ensures
  rw [EStateM.run_bind]
  split at hm
  next a s' hr =>
    rw [hr]
    exact hf a s' hm
  next e s' hr =>
    rw [hr]
    exact hm

theorem ensures_get_bind {f : σ → EStateM ε σ β} (h : Ensures (f s) s Q E) :
    Ensures (get >>= f) s Q E := h

theorem ensures_pure_bind {a : α} {f : α → EStateM ε σ β}
    (h : Ensures (f a) s Q E) : Ensures (pure a >>= f) s Q E := h

theorem ensures_modify_bind {f : σ → σ} {g : Unit → EStateM ε σ β}
    (h : Ensures (g ()) (f s) Q E) : Ensures (modify f >>= g) s Q E := h

theorem ensures_forM {γ : Type} {f : γ → EStateM ε σ Unit} {I : σ → Prop} {l : List γ}
    (hf : ∀ x ∈ l, ∀ s, I s → Ensures (f x) s (fun _ => I) fun _ => I) (hs : I s) :
    Ensures (forM l f) s (fun _ => I) fun _ => I := by
  induction l generalizing s with
  | nil => exact ensures_pure hs
  | cons x l ih =>
    rw [List.forM_cons]
    refine (hf x (by simp) s hs).bind fun _ s' hs' => ?_
    exact ih (fun y hy => hf y (List.mem_cons_of_mem x hy)) hs'

section Results

variable {x : Except ε α} {P P' : α → Prop} {F F' : ε → Prop}

/-- `x` is a value with `P` or an exception with `F`. -/
def Returns (x : Except ε α) (P : α → Prop) (F : ε → Prop) : Prop :=
  match x with
  | .ok a => P a
  | .error e => F e

theorem Returns.mono (h : Returns x P F) (hP : ∀ a, P a → P' a) (hF : ∀ e, F e → F' e) :
    Returns x P' F' := by
  cases x with
  | ok a => exact hP a h
  | error e => exact hF e h

theorem Returns.bind {f : α → Except ε β} {P' : β → Prop} (h : Returns x P F)
    (hf : ∀ a, P a → Returns (f a) P' F) : Returns (x >>= f) P' F := by
  cases x with
  | ok a => exact hf a h
  | error e => exact h

theorem Returns.of_ok {a : α} (h : Returns x P F) (heq : x = .ok a) : P a := by
  rwa [heq] at h

/-- Whatever `x` is, when it does not matter which exceptions there are. -/
theorem returns_bind {f : α → Except ε β} {P : β → Prop}
    (hf : ∀ a, Returns (f a) P fun _ => True) : Returns (x >>= f) P fun _ => True := by
  cases x with
  | ok a => exact hf a
  | error e => trivial

theorem Returns.map {f : α → β} {P' : β → Prop} (h : Returns x (fun a => P' (f a)) F) :
    Returns (x.map f) P' F := by
  cases x with
  | ok a | error e => exact h

theorem returns_foldlM {γ : Type} {f : α → γ → Except ε α} {a : α} {l : List γ}
    (hf : ∀ a, P a → ∀ c ∈ l, Returns (f a c) P F) (ha : P a) : Returns (l.foldlM f a) P F := by
  induction l generalizing a with
  | nil => exact ha
  | cons c l ih =>
    rw [List.foldlM_cons]
    refine (hf a ha c List.mem_cons_self).bind fun a' ha' => ?_
    exact ih (fun a ha c hc => hf a ha c (List.mem_cons_of_mem _ hc)) ha'

end Results

end DartSdk.Throwing
