import DartSdk.Async.BroadcastStreamController

/-!
# What a listener may see

A listener owes nothing, or it is owed the event that is being fired.  `Next` says what may happen to a
listener: an event that starts is owed to it, the event is delivered to it once, and the firing does not
finish before that.  What follows for a whole history is stated in terms of the history alone.

* `Steps.deliver_mem`: what is delivered was started after `listen`, and there was no `cancel` yet;
* `Steps.mem_deliver`: what is started after `listen` is delivered before the firing finishes, unless
  there is a `cancel`;
* `Steps.received_sublist`: nothing twice, and in the order of the events.
-/

namespace DartSdk.Async

open List

variable {T : Type}

/-- What a listener is to the controller. -/
inductive Status (T : Type)
  | absent
  /-- It listens, and it may be owed the event that is being fired. -/
  | active (owed : Option (ℕ × T))
  | gone

/-- What may happen, as the listener `i` sees it. -/
inductive Next (i : ℕ) : Status T → Occurrence T → Status T → Prop
  | listen : Next i .absent (.listen i) (.active none)
  | cancel {owed : Option (ℕ × T)} : Next i (.active owed) (.cancel i) .gone
  | start {event : ℕ} {data : T} :
    Next i (.active none) (.start event data) (.active (some (event, data)))
  | deliver {event : ℕ} {data : T} :
    Next i (.active (some (event, data))) (.deliver i event data) (.active none)
  | finish {s : Status T} {event : ℕ} (h : ∀ owed, s ≠ .active (some owed)) :
    Next i s (.finish event) s
  | startOther {s : Status T} {event : ℕ} {data : T} (h : ∀ owed, s ≠ .active owed) :
    Next i s (.start event data) s
  | listenOther {s : Status T} {j : ℕ} (h : j ≠ i) : Next i s (.listen j) s
  | cancelOther {s : Status T} {j : ℕ} (h : j ≠ i) : Next i s (.cancel j) s
  | deliverOther {s : Status T} {j event : ℕ} {data : T} (h : j ≠ i) :
    Next i s (.deliver j event data) s

inductive Steps (i : ℕ) : Status T → List (Occurrence T) → Status T → Prop
  | nil {s : Status T} : Steps i s [] s
  | snoc {s s' s'' : Status T} {h : List (Occurrence T)} {o : Occurrence T} (hs : Steps i s h s')
    (ho : Next i s' o s'') : Steps i s (h ++ [o]) s''

def received (h : List (Occurrence T)) (i : ℕ) : List ℕ :=
  h.filterMap fun
    | .deliver j event _ => if j = i then some event else none
    | _ => none

def started (h : List (Occurrence T)) : List ℕ :=
  h.filterMap fun
    | .start event _ => some event
    | _ => none

def Status.owed : Status T → List ℕ
  | .active (some (event, _)) => [event]
  | _ => []

namespace Steps

variable {i event : ℕ} {s s' s'' : Status T} {h h' h₁ h₂ h₃ h₄ : List (Occurrence T)} {data : T}
  {o : Occurrence T}

theorem split (hs : Steps i s (h ++ h') s') : ∃ s'', Steps i s h s'' ∧ Steps i s'' h' s' := by
  generalize hall : h ++ h' = all at hs
  induction hs generalizing h' with
  | nil =>
    obtain ⟨rfl, rfl⟩ := append_eq_nil_iff.mp hall
    exact ⟨_, .nil, .nil⟩
  | @snoc _ _ _ o hs ho ih =>
    rcases eq_nil_or_concat h' with rfl | ⟨h', _, rfl⟩
    · rw [append_nil] at hall
      rw [hall]
      exact ⟨_, .snoc hs ho, .nil⟩
    rw [concat_eq_append, ← append_assoc] at hall
    obtain ⟨hi, hl⟩ := append_inj' hall rfl
    cases hl
    obtain ⟨s'', hf, hsc⟩ := ih hi
    rw [concat_eq_append]
    exact ⟨s'', hf, .snoc hsc ho⟩

theorem single (hs : Steps i s [o] s') : Next i s o s' := by
  generalize ha : [o] = all at hs
  cases hs with
  | nil => cases ha
  | @snoc _ _ h o' hs ho =>
    obtain ⟨hi, hl⟩ := append_inj' (show [] ++ [o] = h ++ [o'] from ha) rfl
    cases hl
    subst hi
    generalize hnil : ([] : List (Occurrence T)) = empty at hs
    cases hs with
    | nil => exact ho
    | snoc _ _ => exact absurd (congrArg List.length hnil) (by simp)

theorem split_cons (hs : Steps i s (h ++ o :: h') s') :
    ∃ s₁ s₂, Steps i s h s₁ ∧ Next i s₁ o s₂ ∧ Steps i s₂ h' s' := by
  obtain ⟨s₁, hf, hr⟩ := hs.split
  obtain ⟨s₂, ho, hl⟩ := split (h := [o]) hr
  exact ⟨s₁, s₂, hf, ho.single, hl⟩

/-- What has happened to a listener that is not there yet, that listens, or that is owed an event. -/
def Past (i : ℕ) (h : List (Occurrence T)) : Status T → Prop
  | .absent => True
  | .active none => .listen i ∈ h ∧ .cancel i ∉ h
  | .active (some (event, data)) =>
    (∃ h₁ h₂ h₃, h = h₁ ++ .listen i :: (h₂ ++ .start event data :: h₃)) ∧ .cancel i ∉ h
  | .gone => True

theorem cancel_notMem_snoc (hn : .cancel i ∉ h) (ho : o ≠ .cancel i) : .cancel i ∉ h ++ [o] := by
  intro hm
  rcases mem_append.mp hm with hm | hm
  · exact hn hm
  · exact ho (mem_singleton.mp hm).symm

theorem Past.snoc (hp : Past i h s) (ho : o ≠ .cancel i) : Past i (h ++ [o]) s := by
  match s, hp with
  | .absent, _ => trivial
  | .gone, _ => trivial
  | .active none, ⟨hl, hn⟩ => exact ⟨mem_append_left _ hl, cancel_notMem_snoc hn ho⟩
  | .active (some (_, _)), ⟨⟨h₁, h₂, h₃, hs⟩, hn⟩ =>
    exact ⟨⟨h₁, h₂, h₃ ++ [o], by rw [hs]; simp⟩, cancel_notMem_snoc hn ho⟩

theorem past (hs : Steps i .absent h s) : Past i h s ∧ (s = .absent → .cancel i ∉ h) := by
  induction hs with
  | nil => exact ⟨trivial, by simp⟩
  | @snoc s₁ s₂ h o hs ho ih =>
    obtain ⟨hp, ha⟩ := ih
    have hot : o ≠ .cancel i → s₁ = s₂ →
        Past i (h ++ [o]) s₂ ∧ (s₂ = .absent → .cancel i ∉ h ++ [o]) := by
      rintro hne rfl
      exact ⟨hp.snoc hne, fun hs => cancel_notMem_snoc (ha hs) hne⟩
    cases ho with
    | listen =>
      exact ⟨⟨by simp, cancel_notMem_snoc (ha rfl) (by simp)⟩, nofun⟩
    | cancel => exact ⟨trivial, nofun⟩
    | @start event data =>
      obtain ⟨hl, hn⟩ := hp
      obtain ⟨h₁, h₂, rfl⟩ := append_of_mem hl
      exact ⟨⟨⟨h₁, h₂, [], by simp⟩, cancel_notMem_snoc hn (by simp)⟩, nofun⟩
    | @deliver event data =>
      obtain ⟨⟨h₁, h₂, h₃, rfl⟩, hn⟩ := hp
      exact ⟨⟨by simp, cancel_notMem_snoc hn (by simp)⟩, nofun⟩
    | finish h | startOther h | listenOther h => exact hot (by simp) rfl
    | cancelOther h => exact hot (by simpa using h) rfl
    | deliverOther h => exact hot (by simp) rfl

/-- **What is delivered was fired after `listen`, and there was no `cancel` before.** -/
theorem deliver_mem (hs : Steps i .absent h s) (hm : .deliver i event data ∈ h) :
    ∃ h₁ h₂ h₃ h₄, h = h₁ ++ .listen i ::
        (h₂ ++ .start event data :: (h₃ ++ .deliver i event data :: h₄)) ∧
      .cancel i ∉ h₁ ++ h₂ ++ h₃ := by
  obtain ⟨before, after, rfl⟩ := append_of_mem hm
  obtain ⟨_, _, hb, hd, -⟩ := hs.split_cons
  cases hd with
  | deliver =>
    obtain ⟨⟨h₁, h₂, h₃, rfl⟩, hc⟩ := hb.past.1
    refine ⟨h₁, h₂, h₃, after, by simp, ?_⟩
    simp only [mem_append, mem_cons, not_or] at hc ⊢
    exact ⟨⟨hc.1, hc.2.2.1⟩, hc.2.2.2.2⟩
  | deliverOther h => exact absurd rfl h

theorem active_of_not_cancel (hs : Steps i s h s') (ha : ∃ owed, s = .active owed)
    (hc : .cancel i ∉ h) : ∃ owed, s' = .active owed := by
  induction hs with
  | nil => exact ha
  | @snoc _ _ h o hs ho ih =>
    obtain ⟨owed, rfl⟩ := ih fun hm => hc (mem_append_left _ hm)
    cases ho with
    | cancel => exact absurd (mem_append_right _ mem_cons_self) hc
    | start | deliver | finish h | startOther h | listenOther h | cancelOther h | deliverOther h =>
      exact ⟨_, rfl⟩

/-- An event is owed until it is delivered or the listener is cancelled. -/
theorem owed_of_not_deliver (hs : Steps i (.active (some (event, data))) h s)
    (hc : .cancel i ∉ h) (hd : .deliver i event data ∉ h) :
    s = .active (some (event, data)) := by
  induction hs with
  | nil => rfl
  | @snoc _ _ h o hs ho ih =>
    have hs₁ := ih (fun hm => hc (mem_append_left _ hm))
      fun hm => hd (mem_append_left _ hm)
    cases ho with
    | listen => cases hs₁
    | cancel => exact absurd (mem_append_right _ mem_cons_self) hc
    | start => cases hs₁
    | deliver =>
      cases hs₁
      exact absurd (mem_append_right _ mem_cons_self) hd
    | finish h | startOther h | listenOther h | cancelOther h | deliverOther h => exact hs₁

/-- **What is fired after `listen` is delivered before the firing finishes, unless there is a
`cancel`.** -/
theorem mem_deliver (hs : Steps i .absent h s)
    (hsp : h = h₁ ++ .listen i :: (h₂ ++ .start event data :: (h₃ ++ .finish event :: h₄)))
    (hc : .cancel i ∉ h₂ ++ h₃) : .deliver i event data ∈ h₃ := by
  subst hsp
  obtain ⟨_, s₂, -, hl, hs⟩ := hs.split_cons
  obtain ⟨_, s₄, hw, hst, hs⟩ := hs.split_cons
  obtain ⟨_, _, hfr, hf, -⟩ := hs.split_cons
  have hs₂ : s₂ = .active none := by
    cases hl with
    | listen => rfl
    | listenOther h => exact absurd rfl h
  obtain ⟨owed, rfl⟩ := hw.active_of_not_cancel ⟨none, hs₂⟩
    fun hm => hc (mem_append_left _ hm)
  have hs₄ : s₄ = .active (some (event, data)) := by
    cases hst with
    | start => rfl
    | startOther h => exact absurd rfl (h owed)
  subst hs₄
  by_contra hdeliver
  have hs₅ := hfr.owed_of_not_deliver (fun hm => hc (mem_append_right _ hm)) hdeliver
  subst hs₅
  cases hf with
  | finish h => exact h _ rfl

theorem started_append : started (h ++ h') = started h ++ started h' := filterMap_append

/-- **Nothing is delivered twice, and events are delivered in the order in which they are fired.** -/
theorem received_sublist (hs : Steps i .absent h s) :
    (received h i ++ s.owed).Sublist (started h) := by
  induction hs with
  | nil => exact List.Sublist.slnil
  | @snoc _ _ h o hs ho ih =>
    rw [received, filterMap_append, started_append]
    cases ho with
    | listen => simpa [received, started, Status.owed] using ih
    | cancel =>
      simp only [received, started, Status.owed, filterMap_cons, filterMap_nil, append_nil] at ih ⊢
      exact (sublist_append_left _ _).trans ih
    | start | deliver => simpa [received, started, Status.owed] using ih
    | finish h => simpa [received, started] using ih
    | startOther h =>
      simp only [received, started, filterMap_cons, filterMap_nil, append_nil] at ih ⊢
      exact ih.trans (sublist_append_left _ _)
    | listenOther h | cancelOther h => simpa [received, started] using ih
    | deliverOther h => simpa [received, started, h] using ih

end Steps

end DartSdk.Async
