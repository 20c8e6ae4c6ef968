import DartSdk.Async.BroadcastStreamController.Delivery
import Mathlib.Data.List.Nodup

/-!
# The list of listeners while events are fired

The list is the listeners that are not cancelled; while a callback runs, the listener that it belongs
to is in the list even if it is cancelled.  In the loop, the listeners before the current one have the
id of the next event, and one after it has the id of the event that is fired if and only if the event
is owed to it (`Turn`).

* `Good`: the invariant;
* `Good.subscribe`, `Good.cancel`: listeners come and go at any time.
-/

namespace DartSdk.Async

open LinkedRing BroadcastStreamController List Function

variable {T : Type}

variable {count i x : ℕ} {p q : ℕ → Bool} {l₁ l₂ : List ℕ}

section Lists

def selection (count : ℕ) (p : ℕ → Bool) : List ℕ := ((List.range count).map (· + 1)).filter p

theorem mem_selection : i ∈ selection count p ↔ 1 ≤ i ∧ i ≤ count ∧ p i := by
  unfold selection
  simp only [mem_filter, mem_map, mem_range]
  constructor
  · rintro ⟨⟨j, hj, rfl⟩, hp⟩
    exact ⟨by omega, by omega, hp⟩
  · rintro ⟨hps, hle, hp⟩
    exact ⟨⟨i - 1, by omega, by omega⟩, hp⟩

theorem selection_congr (h : ∀ i, 1 ≤ i → i ≤ count → p i = q i) :
    selection count p = selection count q := by
  refine filter_congr fun i hi => ?_
  obtain ⟨j, hj, rfl⟩ := mem_map.mp hi
  exact h _ (by omega) (by have := mem_range.mp hj; omega)

theorem selection_succ (h : p (count + 1)) :
    selection (count + 1) p = selection count p ++ [count + 1] := by
  unfold selection
  rw [range_succ, map_append, filter_append]
  simp [h]

theorem nodup_selection : (selection count p).Nodup := by
  refine List.Nodup.filter _ (List.Nodup.map ?_ nodup_range)
  intro a b h
  exact Nat.succ.inj h

theorem ne_of_selection_eq (h : selection count p = l₁ ++ x :: l₂) (hi : i ∈ l₁ ++ l₂) : i ≠ x := by
  rintro rfl
  have hn : (l₁ ++ i :: l₂).Nodup := h ▸ nodup_selection
  exact (nodup_cons.mp (nodup_middle.mp hn)).1 hi

theorem selection_remove (h : selection count p = l₁ ++ x :: l₂)
    (hq : ∀ i, q i = (p i && !decide (i = x))) : selection count q = l₁ ++ l₂ := by
  have hq' : selection count q = (selection count p).filter fun i => !decide (i = x) := by
    unfold selection
    rw [filter_filter]
    refine filter_congr fun i _ => ?_
    rw [hq i, Bool.and_comm]
  have hm : ∀ i ∈ l₁ ++ l₂, (!decide (i = x)) = true := by
    intro i hi
    simp [ne_of_selection_eq h hi]
  rw [hq', h, filter_append, filter_cons_of_neg (by simp),
    filter_eq_self.mpr fun i hi => hm i (mem_append_left _ hi),
    filter_eq_self.mpr fun i hi => hm i (mem_append_right _ hi)]

end Lists

section Links

variable {next previous : ℕ → ℕ}

/-- The list of the controller is the selected subscriptions; the others lead to themselves. -/
structure Linked (next previous : ℕ → ℕ) (count : ℕ) (p : ℕ → Bool) : Prop where
  ring : Ring next previous 0 (selection count p)
  removed : ∀ i, 1 ≤ i → i ≤ count → p i = false → next i = i

theorem Linked.congr (h : Linked next previous count p) (hq : ∀ i, 1 ≤ i → i ≤ count → p i = q i) :
    Linked next previous count q := by
  refine ⟨selection_congr hq ▸ h.ring, fun i hp hle hi => h.removed i hp hle ?_⟩
  rw [hq i hp hle, hi]

theorem Linked.subscribe (h : Linked next previous count p) (hp : p (count + 1)) :
    Linked (insertNext (Function.update next (count + 1) (count + 1))
        (Function.update previous (count + 1) (count + 1)) 0 (count + 1))
      (insertPrevious (Function.update previous (count + 1) (count + 1)) 0 (count + 1)) (count + 1) p := by
  have hne : ∀ y ∈ 0 :: selection count p, y ≠ count + 1 := by
    rintro y hy rfl
    rcases mem_cons.mp hy with hy | hy
    · omega
    · have := (mem_selection.mp hy).2.1
      omega
  have hrn := h.ring.congr (fun y hy => update_of_ne (hne y hy) (count + 1) next)
    fun y hy => update_of_ne (hne y hy) (count + 1) previous
  refine ⟨?_, ?_⟩
  · rw [selection_succ hp]
    exact hrn.insert fun hm => hne _ hm rfl
  · intro i hps hle hi
    have hic : i ≠ count + 1 := by
      rintro rfl
      rw [hp] at hi
      cases hi
    have hl : i ≠ Function.update previous (count + 1) (count + 1) 0 := by
      intro heq
      rcases mem_cons.mp (heq ▸ hrn.previous_mem) with hz | hm
      · omega
      · rw [(mem_selection.mp hm).2.2] at hi
        cases hi
    unfold insertNext
    rw [update_of_ne hl, update_of_ne hic, update_of_ne hic]
    exact h.removed i hps (by omega) hi

theorem Linked.remove (h : Linked next previous count p) (hx : selection count p = l₁ ++ x :: l₂)
    (hq : ∀ i, q i = (p i && !decide (i = x))) :
    Linked (unlinkNext next previous x) (unlinkPrevious next previous x) count q ∧
      selection count q = l₁ ++ l₂ := by
  have hrn := h.ring
  rw [hx] at hrn
  have hs := selection_remove hx hq
  refine ⟨⟨hs ▸ hrn.unlink, ?_⟩, hs⟩
  intro i hps hle hi
  unfold unlinkNext
  by_cases hix : i = x
  · rw [hix, update_self]
  have hp : p i = false := by
    rw [hq i] at hi
    simpa [hix] using hi
  have hpr : i ≠ previous x := by
    intro heq
    rcases mem_cons.mp (heq ▸ hrn.previous_mem_of_mem) with hz | hm
    · omega
    · have hm : i ∈ selection count p := hx ▸ mem_append_left _ hm
      rw [(mem_selection.mp hm).2.2] at hp
      cases hp
  rw [update_of_ne hix, update_of_ne hpr]
  exact h.removed i hps hle hp

end Links

/-- The event that is being fired. -/
def Phase.event : Phase T → Option ℕ
  | .idle => none
  | .loop _ _ event _ => some event
  | .firing _ _ event _ => some event
  | .single _ event => some event

variable {event : ℕ} {data : T} {owed : Option (ℕ × T)}

section Histories

variable {h : List (Occurrence T)} {events : ℕ} {canceled : ℕ → Bool} {current : Option ℕ}

/-- The firing of every other event has finished. -/
def Finished (h : List (Occurrence T)) (current : Option ℕ) : Prop :=
  ∀ h₁ h₂ event data, h = h₁ ++ .start event data :: h₂ → .finish event ∈ h₂ ∨ current = some event

theorem Finished.snoc {o : Occurrence T} {next : Option ℕ} (hf : Finished h current)
    (hst : ∀ event data, o = .start event data → next = some event)
    (hn : ∀ event, current = some event → o = .finish event ∨ next = some event) :
    Finished (h ++ [o]) next := by
  intro h₁ h₂ event data hs
  rcases eq_nil_or_concat h₂ with rfl | ⟨h₂, _, rfl⟩
  · obtain ⟨-, hl⟩ := append_inj' hs rfl
    exact .inr (hst event data (List.cons.inj hl).1)
  rw [concat_eq_append, ← cons_append, ← append_assoc] at hs
  obtain ⟨hi, hl⟩ := append_inj' hs rfl
  rw [concat_eq_append, ← (List.cons.inj hl).1]
  rcases hf h₁ h₂ event data hi with hm | hc
  · exact .inl (mem_append_left _ hm)
  · rcases hn event hc with hfn | hc
    · exact .inl (mem_append_right _ (by rw [hfn]; exact mem_cons_self))
    · exact .inr hc

theorem Finished.start (hf : Finished h none) : Finished (h ++ [.start event data]) (some event) :=
  hf.snoc (fun _ _ heq => by cases heq; rfl) nofun

theorem Finished.finish (hf : Finished h (some event)) : Finished (h ++ [.finish event]) none :=
  hf.snoc (nofun) fun _ heq => by cases heq; exact .inl rfl

theorem Finished.other {o : Occurrence T} (hf : Finished h current)
    (hs : ∀ event data, o ≠ .start event data) : Finished (h ++ [o]) current :=
  hf.snoc (fun event data heq => absurd heq (hs event data)) fun _ heq => .inr heq

/-- What the history is to the events, and to the subscriptions that do not listen. -/
structure Recorded (h : List (Occurrence T)) (events count : ℕ) (canceled : ℕ → Bool)
    (current : Option ℕ) : Prop where
  started : started h = List.range events
  finished : Finished h current
  absent : ∀ i, i = 0 ∨ count < i → Steps i .absent h .absent ∧ canceled i = false
  gone : ∀ i, canceled i = true → Steps i .absent h .gone

theorem Recorded.other {o : Occurrence T} {next : Option ℕ}
    (hr : Recorded h events count canceled current) (hf : Finished (h ++ [o]) next)
    (ho : Async.started [o] = []) (ha : ∀ i, i = 0 ∨ count < i → Next i .absent o .absent)
    (hg : ∀ i, canceled i → Next i .gone o .gone) :
    Recorded (h ++ [o]) events count canceled next := by
  refine ⟨?_, hf, fun i hi => ?_, fun i hi => (hr.gone i hi).snoc (hg i hi)⟩
  · rw [Steps.started_append, hr.started, ho, append_nil]
  · exact ⟨(hr.absent i hi).1.snoc (ha i hi), (hr.absent i hi).2⟩

section

variable (hr : Recorded h events count canceled current)

include hr

theorem Recorded.listen :
    Recorded (h ++ [.listen (count + 1)]) events (count + 1) canceled current := by
  refine ⟨?_, hr.finished.other nofun, ?_, ?_⟩
  · rw [Steps.started_append, hr.started]
    exact append_nil _
  · intro i hi
    obtain ⟨hs, hc⟩ := hr.absent i (by omega)
    exact ⟨hs.snoc (.listenOther (by omega)), hc⟩
  · intro i hi
    refine (hr.gone i hi).snoc (.listenOther ?_)
    rintro rfl
    rw [(hr.absent (count + 1) (.inr (by omega))).2] at hi
    cases hi

theorem Recorded.cancel (hx : 1 ≤ x ∧ x ≤ count) (hs : Steps x .absent h (.active owed)) :
    Recorded (h ++ [.cancel x]) events count (Function.update canceled x true) current := by
  refine ⟨?_, hr.finished.other nofun, ?_, ?_⟩
  · rw [Steps.started_append, hr.started]
    exact append_nil _
  · intro i hi
    have hne : i ≠ x := by omega
    obtain ⟨hs, hc⟩ := hr.absent i hi
    exact ⟨hs.snoc (.cancelOther hne.symm), by rw [update_of_ne hne, hc]⟩
  · intro i hi
    by_cases hne : i = x
    · rw [hne]
      exact hs.snoc .cancel
    · rw [update_of_ne hne] at hi
      exact (hr.gone i hi).snoc (.cancelOther (Ne.symm hne))

theorem Recorded.deliver (hx : 1 ≤ x ∧ x ≤ count) (hc : canceled x = false) :
    Recorded (h ++ [.deliver x event data]) events count canceled current := by
  refine hr.other (hr.finished.other nofun) rfl
    (fun i hi => .deliverOther (by omega)) fun i hi => .deliverOther ?_
  rintro rfl
  rw [hc] at hi
  cases hi

end

theorem Recorded.start (hr : Recorded h events count canceled none) :
    Recorded (h ++ [.start events data]) (events + 1) count canceled (some events) := by
  refine ⟨?_, hr.finished.start, ?_, ?_⟩
  · rw [Steps.started_append, hr.started, range_succ]
    rfl
  · intro i hi
    obtain ⟨hs, hc⟩ := hr.absent i hi
    exact ⟨hs.snoc (.startOther nofun), hc⟩
  · intro i hi
    exact (hr.gone i hi).snoc (.startOther nofun)

theorem Recorded.finish (hr : Recorded h events count canceled (some event)) :
    Recorded (h ++ [.finish event]) events count canceled none :=
  hr.other hr.finished.finish rfl (fun _ _ => .finish nofun)
    fun _ _ => .finish nofun

end Histories

section Invariant

variable (c : BroadcastStreamController T)

abbrev Records (current : Option ℕ) : Prop :=
  Recorded c.history c.events c.count c.canceled current

/-- The subscriptions in the list while the callback of `x` runs. -/
abbrev kept (x i : ℕ) : Bool := !c.canceled i || decide (i = x)

/-- After `cancel` of a listener whose callback does not run. -/
abbrev removed (x : ℕ) : BroadcastStreamController T :=
  { c with
    history := c.history ++ [.cancel x]
    canceled := Function.update c.canceled x true
    next := unlinkNext c.next c.previous x
    previous := unlinkPrevious c.next c.previous x }

/-- The listener `i` has this event id and is owed this. -/
def Owed (i id : ℕ) (owed : Option (ℕ × T)) : Prop :=
  c.eventState i = id ∧ Steps i .absent c.history (.active owed)

/-- The turn of the listener has not come yet, or it does not come. -/
def Turn (i id event : ℕ) (data : T) : Prop :=
  Owed c i id (some (event, data)) ∨ Owed c i (1 - id) none

/-- All listeners have the id and are owed nothing. -/
structure Resting (c : BroadcastStreamController T) (id : ℕ) : Prop where
  lt : id < 2
  linked : Linked c.next c.previous c.count fun i => !c.canceled i
  listeners : ∀ i ∈ c.listeners, Owed c i id none

structure Firing (c : BroadcastStreamController T) (p : ℕ → Bool) (id event : ℕ) (data : T)
    (visited rest : List ℕ) : Prop where
  lt : id < 2
  state : c.state = 1 - id + 2
  linked : Linked c.next c.previous c.count p
  visited : ∀ i ∈ visited, Owed c i (1 - id) none
  rest : ∀ i ∈ rest, Turn c i id event data

/-- The loop is at the first one of `rest`. -/
structure InLoop (c : BroadcastStreamController T) (id link event : ℕ) (data : T)
    (visited rest : List ℕ) : Prop where
  split : c.listeners = visited ++ rest
  link : link = rest.headD 0
  firing : Firing c (fun i => !c.canceled i) id event data visited rest

/-- The callback of the subscription runs. -/
structure InAction (c : BroadcastStreamController T) (id subscription event : ℕ) (data : T)
    (visited rest : List ℕ) : Prop where
  split : selection c.count (kept c subscription) = visited ++ subscription :: rest
  firing : Firing c (kept c subscription) id event data visited rest
  eventState : c.eventState subscription = id + 2 + (if c.canceled subscription then 4 else 0)
  steps : c.canceled subscription = false → Steps subscription .absent c.history (.active none)

/-- What holds if the firing ends after so many steps. -/
inductive Ending (c : BroadcastStreamController T) : ℕ → Prop
  | idle {id : ℕ} (hp : c.phase = .idle) (h : Resting c id) (hstate : c.state = id) : Ending c 0
  | single {x event id : ℕ} (hp : c.phase = .single x event) (h : Resting c id)
    (hstate : c.state = id + 2) : Ending c 1
  | loop {id link event : ℕ} {data : T} (visited rest : List ℕ) (hp : c.phase = .loop id link event data)
    (h : InLoop c id link event data visited rest) : Ending c (2 * rest.length + 1)
  | firing {id x event : ℕ} {data : T} (visited rest : List ℕ) (hp : c.phase = .firing id x event data)
    (hx : 1 ≤ x ∧ x ≤ c.count) (h : InAction c id x event data visited rest) :
    Ending c (2 * rest.length + 2)

/-- A callback of a listener or of the controller may run. -/
def Calls : Prop := ∀ id link event data, c.phase ≠ .loop id link event data

/-- **What holds between two steps.** -/
def Good : Prop := Records c c.phase.event ∧ ∃ n, Ending c n

end Invariant

variable {c : BroadcastStreamController T} {id : ℕ} {visited rest : List ℕ} {current : Option ℕ}

theorem kept_eq (hc : c.canceled x = false) (i : ℕ) : kept c x i = !c.canceled i := by
  by_cases hi : i = x
  · simp [kept, hi, hc]
  · simp [kept, hi]

section Keeping

variable {c' : BroadcastStreamController T} {visited' rest' : List ℕ}

/-- The listeners have their event ids and are owed what they were owed. -/
theorem Firing.keep (h : Firing c p id event data visited rest) (hs : c'.state = c.state)
    (hl : Linked c'.next c'.previous c'.count q) (hv : visited' ⊆ visited)
    (hrs : rest' ⊆ rest)
    (hk : ∀ i ∈ visited' ++ rest', ∀ id owed, Owed c i id owed → Owed c' i id owed) :
    Firing c' q id event data visited' rest' := by
  refine ⟨h.lt, hs.trans h.state, hl, fun i hi => ?_, fun i hi => ?_⟩
  · exact hk i (mem_append_left _ hi) _ _ (h.visited i (hv hi))
  · have hk := hk i (mem_append_right _ hi)
    exact (h.rest i (hrs hi)).imp (hk _ _) (hk _ _)

end Keeping

section Bits

theorem and_eventId (h : id < 2) : id &&& STATE_EVENT_ID = id ∧ id + 2 &&& STATE_EVENT_ID = id := by
  revert id
  decide

theorem and_firing (h : id < 2) : id &&& STATE_FIRING = 0 ∧ id + 2 &&& STATE_FIRING ≠ 0 := by
  revert id
  decide

theorem xor_start (h : id < 2) : id ^^^ (STATE_EVENT_ID ||| STATE_FIRING) = 1 - id + 2 := by
  revert id
  decide

theorem or_firing (h : id < 2) : id ||| STATE_FIRING = id + 2 := by
  revert id
  decide

theorem clearFlag_firing (h : id < 2) : clearFlag (id + 2) STATE_FIRING = id := by
  revert id
  decide

theorem after_firing (h : id < 2) (canceled : Bool) :
    let eventState := (id + 2 + if canceled then 4 else 0) ^^^ STATE_EVENT_ID
    (eventState &&& STATE_REMOVE_AFTER_FIRING ≠ 0 ↔ canceled) ∧
      (canceled = false → clearFlag eventState STATE_FIRING = 1 - id) := by
  revert id canceled
  decide

end Bits

section Listen

theorem Owed.subscribe (h : Owed c i id owed) (hi : i ≤ c.count) : Owed c.subscribe i id owed := by
  have hne : i ≠ c.count + 1 := by omega
  exact ⟨(update_of_ne hne _ _).trans h.1, h.2.snoc (.listenOther hne.symm)⟩

theorem owed_new (hr : Records c current)
    (hid : c.state &&& STATE_EVENT_ID = id) : Owed c.subscribe (c.count + 1) id none :=
  ⟨(update_self _ _ _).trans hid,
    (hr.absent (c.count + 1) (.inr (Nat.lt_succ_self _))).1.snoc .listen⟩

theorem Resting.subscribe (h : Resting c id) (hr : Records c current)
    (hid : c.state &&& STATE_EVENT_ID = id) : Resting c.subscribe id := by
  have hn := (hr.absent (c.count + 1) (.inr (Nat.lt_succ_self _))).2
  have hp : (!c.canceled (c.count + 1)) = true := by rw [hn]; rfl
  refine ⟨h.lt, h.linked.subscribe hp, ?_⟩
  intro i hi
  have hi : i ∈ selection (c.count + 1) fun i => !c.canceled i := hi
  rw [selection_succ hp] at hi
  rcases mem_append.mp hi with hi | hi
  · exact (h.listeners i hi).subscribe (mem_selection.mp hi).2.1
  · rw [mem_singleton.mp hi]
    exact owed_new hr hid

theorem Firing.subscribe (h : Firing c p id event data visited rest)
    (hr : Records c current) (hp : p (c.count + 1))
    (hle : ∀ i ∈ visited ++ rest, i ≤ c.count) :
    Firing c.subscribe p id event data visited (rest ++ [c.count + 1]) := by
  have hid : c.state &&& STATE_EVENT_ID = 1 - id := by
    rw [h.state]
    exact (and_eventId (by omega)).2
  refine ⟨h.lt, h.state, h.linked.subscribe hp, ?_, ?_⟩
  · intro i hi
    exact (h.visited i hi).subscribe (hle i (mem_append_left _ hi))
  · intro i hi
    rcases mem_append.mp hi with hi | hi
    · have hle := hle i (mem_append_right _ hi)
      exact (h.rest i hi).imp (·.subscribe hle) (·.subscribe hle)
    · rw [mem_singleton.mp hi]
      exact .inr (owed_new hr hid)

theorem Good.subscribe (h : Good c) (hcl : Calls c) : Good c.subscribe := by
  obtain ⟨hr, n, h⟩ := h
  refine ⟨hr.listen, ?_⟩
  cases h with
  | idle hp h hs =>
    exact ⟨_, .idle hp (h.subscribe hr (by rw [hs]; exact (and_eventId h.lt).1)) hs⟩
  | single hp h hs =>
    exact ⟨_, .single hp (h.subscribe hr (by rw [hs]; exact (and_eventId h.lt).2)) hs⟩
  | loop _ _ hp => exact absurd hp (hcl _ _ _ _)
  | @firing _ x _ _ visited rest hp hx h =>
    obtain ⟨hsp, hf, hs, hst⟩ := h
    have hn := (hr.absent (c.count + 1) (.inr (Nat.lt_succ_self _))).2
    have hne : x ≠ c.count + 1 := by omega
    have hsl : kept c x (c.count + 1) := by
      rw [kept, hn]
      rfl
    refine ⟨_, .firing visited (rest ++ [c.count + 1]) hp ⟨hx.1, Nat.le_succ_of_le hx.2⟩ ⟨?_, ?_, ?_, ?_⟩⟩
    · show selection (c.count + 1) (kept c x) = _
      rw [selection_succ hsl, hsp, append_assoc, cons_append]
    · refine hf.subscribe hr hsl fun i hi => ?_
      have hm : i ∈ visited ++ x :: rest := perm_middle.mem_iff.mpr (mem_cons_of_mem _ hi)
      exact (mem_selection.mp (hsp ▸ hm)).2.1
    · exact (update_of_ne hne _ _).trans hs
    · exact fun hc => (hst hc).snoc (.listenOther hne.symm)

end Listen

section Cancel

theorem cancel_eq_remove (hc : c.canceled x = false) (hn : c.next x ≠ x)
    (hs : c.eventState x &&& STATE_FIRING = 0) :
    c.cancel x = removed c x := by
  unfold BroadcastStreamController.cancel recordCancel record
  rw [if_neg (by rw [hc]; simp), if_neg hn, if_neg (not_not.mpr hs)]
  rfl

theorem cancel_eq_flag (hc : c.canceled x = false) (hn : c.next x ≠ x)
    (hs : c.eventState x &&& STATE_FIRING ≠ 0) :
    c.cancel x =
      { c with
        history := c.history ++ [.cancel x]
        canceled := Function.update c.canceled x true
        eventState := Function.update c.eventState x (c.eventState x ||| STATE_REMOVE_AFTER_FIRING) } := by
  unfold BroadcastStreamController.cancel recordCancel record
  rw [if_neg (by rw [hc]; simp), if_neg hn, if_pos hs]
  rfl

theorem Firing.turn (h : Firing c p id event data visited rest) (hi : i ∈ visited ∨ i ∈ rest) :
    Turn c i id event data :=
  hi.elim (fun hi => .inr (h.visited i hi)) (h.rest i)

theorem Turn.steps (h : Turn c i id event data) :
    ∃ owed, Steps i .absent c.history (.active owed) :=
  h.elim (fun h => ⟨_, h.2⟩) fun h => ⟨_, h.2⟩

theorem Turn.and_firing (h : Turn c i id event data) (hid : id < 2) :
    c.eventState i &&& STATE_FIRING = 0 := by
  rcases h with h | h
  · rw [h.1]
    exact (Async.and_firing hid).1
  · rw [h.1]
    exact (Async.and_firing (by omega)).1

theorem Resting.cancel (h : Resting c id) (hr : Records c current)
    (hx : 1 ≤ x ∧ x ≤ c.count) (hc : c.canceled x = false) :
    c.cancel x = removed c x ∧ Records (removed c x) current ∧ Resting (removed c x) id := by
  have hm : x ∈ c.listeners := mem_selection.mpr ⟨hx.1, hx.2, by rw [hc]; rfl⟩
  obtain ⟨hs, hst⟩ := h.listeners x hm
  obtain ⟨_, _, hsp⟩ := append_of_mem hm
  have hrm := h.linked.remove (q := fun i => !Function.update c.canceled x true i) hsp (by
    intro i
    by_cases hi : i = x
    · simp [hi]
    · simp [hi, update_of_ne])
  refine ⟨cancel_eq_remove hc (h.linked.ring.next_ne hm)
    (by rw [hs]; exact (and_firing h.lt).1), hr.cancel hx hst, h.lt, hrm.1, ?_⟩
  intro i hi
  have hi : i ∈ selection c.count fun i => !Function.update c.canceled x true i := hi
  have hne : i ≠ x := by
    rintro rfl
    simpa using (mem_selection.mp hi).2.2
  have ho : i ∈ c.listeners := by
    obtain ⟨hp, hle, hi⟩ := mem_selection.mp hi
    rw [update_of_ne hne] at hi
    exact mem_selection.mpr ⟨hp, hle, hi⟩
  obtain ⟨hs, hst⟩ := h.listeners i ho
  exact ⟨hs, hst.snoc (.cancelOther hne.symm)⟩

theorem Firing.cancelOther {subscription : ℕ}
    (h : Firing c (kept c subscription) id event data visited rest)
    (hs : selection c.count (kept c subscription) = visited ++ subscription :: rest)
    (hr : Records c current) (hx : 1 ≤ x ∧ x ≤ c.count) (hc : c.canceled x = false)
    (hne : x ≠ subscription) :
    c.cancel x = removed c x ∧ Records (removed c x) current ∧ ∃ visited rest,
      selection c.count (kept (removed c x) subscription) = visited ++ subscription :: rest ∧
      Firing (removed c x) (kept (removed c x) subscription) id event data visited rest := by
  have hm : x ∈ visited ++ subscription :: rest :=
    hs ▸ mem_selection.mpr ⟨hx.1, hx.2, by rw [kept, hc]; rfl⟩
  have hq : ∀ i, kept (removed c x) subscription i =
      (kept c subscription i && !decide (i = x)) := by
    intro i
    by_cases hi : i = x
    · simp [kept, hi, hne]
    · simp [kept, hi, update_of_ne]
  -- Wherever the listener is, it is taken out there.
  have hm' : x ∈ visited ∨ x ∈ rest := by
    rcases mem_append.mp hm with hm | hm
    · exact .inl hm
    · exact .inr ((mem_cons.mp hm).resolve_left hne)
  have ht := h.turn hm'
  obtain ⟨owed, how⟩ := ht.steps
  have hn : c.next x ≠ x := h.linked.ring.next_ne (hs ▸ hm)
  have hl : ∃ visited' rest', Linked (removed c x).next (removed c x).previous c.count
        (kept (removed c x) subscription) ∧
      selection c.count (kept (removed c x) subscription) = visited' ++ subscription :: rest' ∧
      visited' ⊆ visited ∧ rest' ⊆ rest := by
    rcases hm' with hm' | hm'
    · obtain ⟨v₁, v₂, rfl⟩ := append_of_mem hm'
      have hs' : selection c.count (kept c subscription) =
          v₁ ++ x :: (v₂ ++ subscription :: rest) := hs.trans (by simp)
      have hrm := h.linked.remove hs' hq
      exact ⟨v₁ ++ v₂, rest, hrm.1, by rw [hrm.2]; simp,
        ((sublist_cons_self x v₂).append_left v₁).subset, fun _ h => h⟩
    · obtain ⟨r₁, r₂, rfl⟩ := append_of_mem hm'
      have hs' : selection c.count (kept c subscription) =
          (visited ++ subscription :: r₁) ++ x :: r₂ := hs.trans (by simp)
      have hrm := h.linked.remove hs' hq
      exact ⟨visited, r₁ ++ r₂, hrm.1, by rw [hrm.2]; simp, fun _ h => h,
        ((sublist_cons_self x r₂).append_left r₁).subset⟩
  obtain ⟨visited', rest', hl, hs', hv, hrs⟩ := hl
  have hot : ∀ i ∈ visited' ++ rest', x ≠ i := by
    rintro i hi rfl
    have hm : x ∈ visited' ++ subscription :: rest' := perm_middle.mem_iff.mpr (mem_cons_of_mem _ hi)
    have := (mem_selection.mp (hs' ▸ hm)).2.2
    simp [kept, hne] at this
  exact ⟨cancel_eq_remove hc hn (ht.and_firing h.lt), hr.cancel hx how, visited', rest', hs',
    h.keep rfl hl hv hrs fun i hi _ _ ho =>
      ⟨ho.1, ho.2.snoc (.cancelOther (hot i hi))⟩⟩

theorem Good.cancel (h : Good c) (hcl : Calls c) (hx : 1 ≤ x ∧ x ≤ c.count) : Good (c.cancel x) := by
  by_cases hc : c.canceled x
  · unfold BroadcastStreamController.cancel
    rwa [if_pos hc]
  have hc : c.canceled x = false := by simpa using hc
  obtain ⟨hr, n, h⟩ := h
  cases h with
  | idle hp h hst =>
    obtain ⟨heq, hr', h'⟩ := h.cancel hr hx hc
    rw [heq]
    exact ⟨hr', _, .idle hp h' hst⟩
  | single hp h hst =>
    obtain ⟨heq, hr', h'⟩ := h.cancel hr hx hc
    rw [heq]
    exact ⟨hr', _, .single hp h' hst⟩
  | loop _ _ hp => exact absurd hp (hcl _ _ _ _)
  | @firing id y _ _ visited rest hp hy h =>
    obtain ⟨hsp, hf, hst, hss⟩ := h
    by_cases hne : x = y
    · subst hne
      have hm : x ∈ selection c.count (kept c x) := by
        rw [hsp]
        simp
      rw [hc] at hst
      have hsm : ∀ i, kept c x i = kept (removed c x) x i := by
        intro i
        by_cases hi : i = x
        · simp [kept, hi]
        · simp [kept, hi, update_of_ne]
      rw [cancel_eq_flag hc (hf.linked.ring.next_ne hm)
        (by rw [hst]; exact (and_firing hf.lt).2)]
      refine ⟨hr.cancel hx (hss hc), _, .firing visited rest hp hy
        ⟨?_, hf.keep rfl (hf.linked.congr fun i _ _ => hsm i)
          (fun _ h => h) (fun _ h => h) fun i hi _ _ ho => ?_, ?_, ?_⟩⟩
      · exact (selection_congr fun i _ _ => (hsm i).symm).trans hsp
      · have hne := ne_of_selection_eq hsp hi
        exact ⟨(update_of_ne hne _ _).trans ho.1, ho.2.snoc (.cancelOther hne.symm)⟩
      · have hfg : ∀ id < 2, id + 2 ||| STATE_REMOVE_AFTER_FIRING = id + 2 + 4 := by decide
        simp [hst, hfg id hf.lt]
      · intro hfl
        have ht : Function.update c.canceled x true x := update_self _ _ _
        exact absurd (ht.symm.trans hfl) (by simp)
    · obtain ⟨heq, hr', visited', rest', hsp', hf'⟩ :=
        hf.cancelOther hsp hr hx hc hne
      have hs : (removed c x).canceled y = c.canceled y := update_of_ne (Ne.symm hne) _ _
      rw [heq]
      refine ⟨hr', _, .firing visited' rest' hp hy ⟨hsp', hf', ?_, fun hc => ?_⟩⟩
      · rwa [hs]
      · rw [hs] at hc
        exact (hss hc).snoc (.cancelOther hne)

end Cancel

end DartSdk.Async
