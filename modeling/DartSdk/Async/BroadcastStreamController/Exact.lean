import DartSdk.Async.BroadcastStreamController.Invariant

/-!
# Broadcast delivery is exact

* `run_good`: every run keeps the invariant;
* `exists_proceed`: if the callbacks return, the firing comes to an end;
* `broadcast_exact`: a listener receives every event whose firing starts after `listen` and ends before
  `cancel`, once and in order, and nothing after `cancel`.

An event whose firing starts before the `cancel` of a listener is not delivered to it if another callback
cancels it before its turn (`broadcast_cancel_while_firing`).
-/

namespace DartSdk.Async

open LinkedRing BroadcastStreamController List Function

variable {T : Type}

variable {c : BroadcastStreamController T} {id : ℕ} {data : T}

section Add

variable {event : ℕ}

theorem isFiring_eq (hid : id < 2) :
    (c.state = id → c.isFiring = false) ∧ (c.state = id + 2 → c.isFiring) := by
  unfold isFiring
  refine ⟨fun h => ?_, fun h => ?_⟩
  · rw [h]
    exact decide_eq_false (not_not.mpr (and_firing hid).1)
  · rw [h]
    exact decide_eq_true (and_firing hid).2

theorem mayAddEvent_eq (hid : id < 2) :
    (c.state = id → c.mayAddEvent) ∧ (c.state = id + 2 → c.mayAddEvent = false) := by
  unfold mayAddEvent
  refine ⟨fun h => ?_, fun h => ?_⟩
  · rw [(isFiring_eq hid).1 h, h]
    exact decide_eq_true ⟨Nat.lt_trans hid (by decide), rfl⟩
  · rw [(isFiring_eq hid).2 h]
    exact decide_eq_false fun h => (nomatch h.2)

theorem deliver_eq {x : ℕ} (hc : c.canceled x = false) :
    c.deliver x event data = c.record (.deliver x event data) := by
  unfold BroadcastStreamController.deliver
  rw [if_neg (by rw [hc]; simp)]

theorem add_eq_of_empty (hm : c.mayAddEvent) (he : c.next 0 = 0) :
    c.add data =
      { c with
        history := c.history ++ [.start c.events data] ++ [.finish c.events]
        events := c.events + 1 } := by
  unfold BroadcastStreamController.add sendData
  rw [if_pos hm]
  exact if_pos (decide_eq_true he)

theorem add_eq_of_one (hm : c.mayAddEvent) (he : c.next 0 ≠ 0)
    (ho : c.next (c.next 0) = 0) (hc : c.canceled (c.next 0) = false) :
    c.add data =
      { c with
        state := c.state ||| STATE_FIRING
        history := c.history ++ [.start c.events data] ++ [.deliver (c.next 0) c.events data]
        events := c.events + 1
        phase := .single (c.next 0) c.events } := by
  unfold BroadcastStreamController.add sendData
  rw [if_pos hm]
  refine (if_neg (by exact fun h => he (of_decide_eq_true h))).trans ?_
  refine (if_pos (decide_eq_true ho)).trans ?_
  dsimp only
  rw [deliver_eq (by exact hc)]
  rfl

theorem add_eq_of_many (hm : c.mayAddEvent) (hf : c.isFiring = false)
    (he : c.next 0 ≠ 0) (ho : c.next (c.next 0) ≠ 0) :
    c.add data =
      { c with
        state := c.state ^^^ (STATE_EVENT_ID ||| STATE_FIRING)
        history := c.history ++ [.start c.events data]
        events := c.events + 1
        phase := .loop (c.state &&& STATE_EVENT_ID) (c.next 0) c.events data } := by
  unfold BroadcastStreamController.add sendData forEachListener
  rw [if_pos hm]
  refine (if_neg (by exact fun h => he (of_decide_eq_true h))).trans ?_
  refine (if_neg (by exact fun h => ho (of_decide_eq_true h))).trans ?_
  refine (if_neg ?_).trans (if_neg ?_)
  · exact fun h => absurd (hf.symm.trans h) (by simp)
  · exact fun h => he (of_decide_eq_true h)

theorem Resting.add (h : Resting c id) (hr : Records c none)
    (hs : c.state = id) (hp : c.phase = .idle) : Good (c.add data) := by
  have hm := (mayAddEvent_eq h.lt).1 hs
  have hrn : Ring c.next c.previous 0 c.listeners := h.linked.ring
  have hps : ∀ i ∈ c.listeners, i ≠ 0 := fun i hi => by
    have := (mem_selection.mp hi).1
    omega
  -- Every listener is owed the event.
  have hst : ∀ i ∈ c.listeners, Steps i .absent (c.history ++ [.start c.events data])
      (.active (some (c.events, data))) := fun i hi => (h.listeners i hi).2.snoc .start
  cases hl : c.listeners with
  | nil =>
    rw [add_eq_of_empty hm (hrn.next_root_eq.mpr hl)]
    rw [Good]
    refine ⟨by rw [hp]; exact hr.start.finish, _, .idle hp ⟨h.lt, h.linked, fun i hi => ?_⟩ hs⟩
    have hi : i ∈ c.listeners := hi
    rw [hl] at hi
    cases hi
  | cons x l =>
    have hx : x ∈ c.listeners := by rw [hl]; exact mem_cons_self
    have hf : c.next 0 = x := by rw [hrn.next_root, hl]; rfl
    have hn : c.next x = l.headD 0 := by
      have hrn' : Ring c.next c.previous 0 ([] ++ x :: l) := hl ▸ hrn
      exact hrn'.next_eq
    have hx' := mem_selection.mp hx
    have hc : c.canceled x = false := by simpa using hx'.2.2
    cases l with
    | nil =>
      rw [add_eq_of_one hm (by rw [hf]; exact hps x hx) (by rw [hf]; exact hn)
        (by rwa [hf]), hf]
      refine ⟨hr.start.deliver ⟨hx'.1, hx'.2.1⟩ hc, _, .single rfl
        ⟨h.lt, h.linked, fun i hi => ?_⟩ ?_⟩
      · have hi : i ∈ c.listeners := hi
        refine ⟨(h.listeners i hi).1, ?_⟩
        have hix : i = x := by
          rw [hl] at hi
          exact mem_singleton.mp hi
        exact hix ▸ (hst i hi).snoc (hix ▸ .deliver)
      · rw [hs, or_firing h.lt]
    | cons y l =>
      have hy : y ≠ 0 := hps y (by rw [hl]; simp)
      rw [add_eq_of_many hm ((isFiring_eq h.lt).1 hs) (by rw [hf]; exact hps x hx)
        (by rw [hf, hn]; exact hy), hf, hs, (and_eventId h.lt).1, xor_start h.lt]
      refine ⟨hr.start, _, .loop [] (x :: y :: l) rfl
        ⟨hl, rfl, h.lt, rfl, h.linked, nofun, fun i hi => ?_⟩⟩
      rw [← hl] at hi
      exact .inl ⟨(h.listeners i hi).1, hst i hi⟩

theorem Good.add (h : Good c) (hc : Calls c) : Good (c.add data) := by
  -- While an event is fired, nothing happens.
  have hrf : ∀ id < 2, c.state = id + 2 → Good (c.add data) := by
    intro id hid hs
    unfold BroadcastStreamController.add
    rwa [if_neg (by rw [(mayAddEvent_eq hid).2 hs]; simp)]
  obtain ⟨hr, n, h⟩ := h
  cases h with
  | idle hp h hs =>
    rw [hp] at hr
    exact h.add hr hs hp
  | single _ h hs => exact hrf _ h.lt hs
  | loop _ _ hp => exact absurd hp (hc _ _ _ _)
  | firing _ _ _ _ h => exact hrf _ (by omega) h.firing.state

end Add

section Proceed

variable {i x link event : ℕ} {visited rest : List ℕ}

theorem InLoop.finish (h : InLoop c id link event data visited []) (hr : Records c (some event)) :
    Records (c.loopStep id link event data) (c.loopStep id link event data).phase.event ∧
      Ending (c.loopStep id link event data) 0 := by
  obtain ⟨hs, rfl, hf⟩ := h
  have hid : 1 - id < 2 := by omega
  refine ⟨hr.finish, .idle rfl ⟨hid, hf.linked, fun i hi => ?_⟩ ?_⟩
  · have hi : i ∈ c.listeners := hi
    rw [hs, append_nil] at hi
    obtain ⟨hst, hsp⟩ := hf.visited i hi
    exact ⟨hst, hsp.snoc (.finish nofun)⟩
  · show clearFlag c.state STATE_FIRING = 1 - id
    rw [hf.state, clearFlag_firing hid]

theorem InLoop.deliver (h : InLoop c id x event data visited (x :: rest))
    (hr : Records c (some event)) (how : Owed c x id (some (event, data))) :
    Records (c.loopStep id x event data) (some event) ∧
      (c.loopStep id x event data).phase = .firing id x event data ∧
      (1 ≤ x ∧ x ≤ (c.loopStep id x event data).count) ∧
      InAction (c.loopStep id x event data) id x event data visited rest := by
  obtain ⟨hs, -, hf⟩ := h
  have hx : x ∈ c.listeners := by rw [hs]; simp
  obtain ⟨hp, hle, hc⟩ := mem_selection.mp hx
  have hc : c.canceled x = false := by simpa using hc
  have hst : c.loopStep id x event data =
      { c with
        eventState := Function.update c.eventState x (id + 2)
        history := c.history ++ [.deliver x event data]
        phase := .firing id x event data } := by
    unfold loopStep
    rw [if_neg (by omega), how.1, if_pos (and_eventId hf.lt).1, or_firing hf.lt]
    dsimp only
    rw [deliver_eq (by exact hc)]
    rfl
  have hsm := kept_eq hc
  rw [hst]
  refine ⟨hr.deliver ⟨hp, hle⟩ hc, rfl, ⟨hp, hle⟩, ?_, ?_, ?_, ?_⟩
  · exact (selection_congr fun i _ _ => hsm i).trans hs
  · refine hf.keep rfl (hf.linked.congr fun i _ _ => (hsm i).symm) (fun _ h => h)
      (fun _ => mem_cons_of_mem _) fun i hi _ _ ho => ?_
    have hne := ne_of_selection_eq hs hi
    exact ⟨(update_of_ne hne _ _).trans ho.1, ho.2.snoc (.deliverOther hne.symm)⟩
  · show Function.update c.eventState x (id + 2) x = _
    rw [update_self, hc]
    rfl
  · exact fun _ => how.2.snoc .deliver

theorem InLoop.skip (h : InLoop c id x event data visited (x :: rest))
    (ho : Owed c x (1 - id) none) :
    c.loopStep id x event data = { c with phase := .loop id (c.next x) event data } ∧
      InLoop (c.loopStep id x event data) id (c.next x) event data (visited ++ [x]) rest := by
  obtain ⟨hs, -, hf⟩ := h
  have hx : x ∈ c.listeners := by rw [hs]; simp
  have hp := (mem_selection.mp hx).1
  have hid := hf.lt
  have hr : Ring c.next c.previous 0 (visited ++ x :: rest) := hs ▸ hf.linked.ring
  have hst : c.loopStep id x event data = { c with phase := .loop id (c.next x) event data } := by
    unfold loopStep
    rw [if_neg (by omega), ho.1, if_neg]
    rw [(and_eventId (by omega)).1]
    omega
  rw [hst]
  refine ⟨rfl, ?_, hr.next_eq, hid, hf.state, hf.linked, ?_, ?_⟩
  · exact hs.trans (by simp)
  · exact forall_mem_append.mpr ⟨hf.visited, forall_mem_singleton.mpr ho⟩
  · exact fun i hi => hf.rest i (mem_cons_of_mem _ hi)

theorem InAction.after (h : InAction c id x event data visited rest) :
    ∃ link visited' next previous eventState,
      c.afterAction id x event data =
        { c with
          next := next
          previous := previous
          eventState := eventState
          phase := .loop id link event data } ∧
      InLoop (c.afterAction id x event data) id link event data visited' rest := by
  obtain ⟨hs, hf, hst, hsp⟩ := h
  have hrn : Ring c.next c.previous 0 (visited ++ x :: rest) := hs ▸ hf.linked.ring
  obtain ⟨hr, hcl⟩ := after_firing hf.lt (c.canceled x)
  rw [← hst] at hr hcl
  -- The event state of the listener itself does not matter if it is removed.
  have hkp : ∀ eventState, ∀ i ∈ visited ++ rest,
      Function.update (Function.update c.eventState x (c.eventState x ^^^ STATE_EVENT_ID)) x eventState i =
        c.eventState i := by
    intro eventState i hi
    have hne := ne_of_selection_eq hs hi
    rw [update_of_ne hne, update_of_ne hne]
  cases hc : c.canceled x with
  | true =>
    have hq : ∀ i, (!c.canceled i) = (kept c x i && !decide (i = x)) := by
      intro i
      by_cases hi : i = x
      · simp [hi, hc]
      · simp [kept, hi]
    obtain ⟨hln, hl⟩ := hf.linked.remove hs hq
    have ha : c.afterAction id x event data =
        { c with
          next := unlinkNext c.next c.previous x
          previous := unlinkPrevious c.next c.previous x
          eventState := Function.update
            (Function.update c.eventState x (c.eventState x ^^^ STATE_EVENT_ID)) x
            (clearFlag (c.eventState x ^^^ STATE_EVENT_ID) STATE_FIRING)
          phase := .loop id (c.next x) event data } := by
      unfold afterAction setEventState
      dsimp only
      rw [if_pos (by rw [update_self]; exact hr.mpr hc)]
      simp only [removeListener, update_self]
    refine ⟨c.next x, visited, _, _, _, ha, ?_⟩
    rw [ha]
    exact ⟨hl, hrn.next_eq, hf.keep rfl hln (fun _ h => h) (fun _ h => h)
      fun i hi _ _ ho => ⟨(hkp _ i hi).trans ho.1, ho.2⟩⟩
  | false =>
    have hsm := kept_eq hc
    have ha : c.afterAction id x event data =
        { c with
          eventState := Function.update
            (Function.update c.eventState x (c.eventState x ^^^ STATE_EVENT_ID)) x (1 - id)
          phase := .loop id (c.next x) event data } := by
      unfold afterAction setEventState
      dsimp only
      rw [if_neg (by rw [update_self, hr, hc]; simp)]
      simp only [update_self, hcl hc]
    refine ⟨c.next x, visited ++ [x], _, _, _, ha, ?_⟩
    have hk : Firing (c.afterAction id x event data) (fun i => !c.canceled i) id event data
        visited rest := by
      rw [ha]
      exact hf.keep rfl (hf.linked.congr fun i _ _ => hsm i) (fun _ h => h) (fun _ h => h)
        fun i hi _ _ ho => ⟨(hkp _ i hi).trans ho.1, ho.2⟩
    rw [ha] at hk ⊢
    refine ⟨?_, hrn.next_eq, hk.lt, hk.state, hk.linked,
      forall_mem_append.mpr ⟨hk.visited, forall_mem_singleton.mpr ?_⟩, hk.rest⟩
    · exact (selection_congr fun i _ _ => (hsm i).symm).trans (hs.trans (by simp))
    · exact ⟨update_self _ _ _, hsp hc⟩

theorem Resting.finish (h : Resting c id) (hr : Records c (some event))
    (hs : c.state = id + 2) :
    let c' := { c.record (.finish event) with state := clearFlag c.state STATE_FIRING, phase := .idle }
    Records c' none ∧ Ending c' 0 := by
  refine ⟨hr.finish, .idle rfl ⟨h.lt, h.linked, fun i hi => ?_⟩ ?_⟩
  · obtain ⟨hs, hst⟩ := h.listeners i hi
    exact ⟨hs, hst.snoc (.finish nofun)⟩
  · rw [hs, clearFlag_firing h.lt]

/-- A step of the firing, which is nearer to its end then. -/
theorem Ending.proceed {n : ℕ} (h : Ending c n) (hr : Records c c.phase.event) :
    c.phase = .idle ∨ ∃ c' m, c.proceed = some c' ∧ m < n ∧ Records c' c'.phase.event ∧ Ending c' m := by
  unfold BroadcastStreamController.proceed
  cases h with
  | idle hp => exact .inl hp
  | single hp h hs =>
    rw [hp] at hr ⊢
    exact .inr ⟨_, 0, rfl, Nat.one_pos, h.finish hr hs⟩
  | @loop id link event data visited rest hp h =>
    rw [hp] at hr ⊢
    cases rest with
    | nil => exact .inr ⟨_, 0, rfl, Nat.one_pos, h.finish hr⟩
    | cons x rest =>
      obtain rfl : link = x := h.link
      rcases h.firing.rest link mem_cons_self with ho | ho
      · obtain ⟨hr', hph', hx, ha⟩ := h.deliver hr ho
        refine .inr ⟨_, _, rfl, ?_, by rwa [hph'], .firing visited rest hph' hx ha⟩
        simp
        omega
      · obtain ⟨hst, hl⟩ := h.skip ho
        refine .inr ⟨_, 2 * rest.length + 1, rfl, by simp, ?_⟩
        rw [hst] at hl ⊢
        exact ⟨hr, .loop _ _ rfl hl⟩
  | firing _ _ hp _ h =>
    rw [hp] at hr ⊢
    obtain ⟨link, visited', _, _, _, haf, hl⟩ := h.after
    refine .inr ⟨_, _, rfl, Nat.lt_succ_self _, ?_⟩
    rw [haf] at hl ⊢
    exact ⟨hr, .loop _ _ rfl hl⟩

end Proceed

variable {c' : BroadcastStreamController T} {action : Action T} {actions : List (Action T)}

section Runs

theorem good_new : Good (new : BroadcastStreamController T) := by
  refine ⟨⟨rfl, ?_, fun i _ => ⟨.nil, rfl⟩, nofun⟩, _, .idle rfl ⟨Nat.two_pos, ⟨?_, ?_⟩, ?_⟩ rfl⟩
  · intro h₁ h₂ event data hs
    cases h₁ <;> cases hs
  · exact ⟨⟨rfl, rfl⟩, nodup_singleton 0⟩
  · intro i _ _ _
    rfl
  · intro i hi
    cases hi

theorem step_cases (hs : c.step action = some c') :
    (action = .proceed ∧ c.proceed = some c') ∨
      Calls c ∧
        ((action = .listen ∧ c' = c.subscribe) ∨
          (∃ x, action = .cancel x ∧ (1 ≤ x ∧ x ≤ c.count) ∧ c' = c.cancel x) ∨
          ∃ data, action = .add data ∧ c' = c.add data) := by
  cases action with
  | proceed => exact .inl ⟨rfl, hs⟩
  | listen =>
    dsimp only [step] at hs
    split at hs
    · cases hs
    · next hp =>
      cases hs
      exact .inr ⟨hp, .inl ⟨rfl, rfl⟩⟩
  | cancel x =>
    dsimp only [step] at hs
    split at hs
    · cases hs
    next hp =>
    split at hs
    · next hx =>
      cases hs
      exact .inr ⟨hp, .inr (.inl ⟨x, rfl, hx, rfl⟩)⟩
    · cases hs
  | add data =>
    dsimp only [step] at hs
    split at hs
    · cases hs
    · next hp =>
      cases hs
      exact .inr ⟨hp, .inr (.inr ⟨data, rfl, rfl⟩)⟩

/-- **Every step keeps the invariant.** -/
theorem step_good (h : Good c) (hs : c.step action = some c') : Good c' := by
  rcases step_cases hs with ⟨-, hp⟩ | ⟨hph, hlisten | hc | ha⟩
  · obtain ⟨hr, n, he⟩ := h
    obtain hi | ⟨c'', m, hp', -, hg⟩ := he.proceed hr
    · rw [BroadcastStreamController.proceed, hi] at hp
      cases hp
    · cases hp.symm.trans hp'
      exact ⟨hg.1, m, hg.2⟩
  · obtain ⟨-, rfl⟩ := hlisten
    exact h.subscribe hph
  · obtain ⟨x, -, hx, rfl⟩ := hc
    exact h.cancel hph hx
  · obtain ⟨_, -, rfl⟩ := ha
    exact h.add hph

theorem run_good (h : Good c) (hr : c.run actions = some c') : Good c' := by
  unfold run at hr
  induction actions generalizing c with
  | nil =>
    cases hr
    exact h
  | cons action actions ih =>
    rw [foldlM_cons] at hr
    obtain ⟨_, hs, hr⟩ := Option.bind_eq_some_iff.mp hr
    exact ih (step_good h hs) hr

/-- Some steps, all of them `proceed`, lead to the end of the firing. -/
def Ends (c : BroadcastStreamController T) : Prop :=
  ∃ n c', c.run (List.replicate n .proceed) = some c' ∧ c'.phase = .idle ∧ Good c'

theorem Ends.proceed (h : Ends c') (hp : c.proceed = some c') : Ends c := by
  obtain ⟨n, c'', hr, hi⟩ := h
  refine ⟨n + 1, c'', ?_, hi⟩
  unfold run
  rw [replicate_succ, foldlM_cons, show c.step .proceed = some c' from hp]
  exact hr

theorem exists_proceed (h : Good c) : Ends c := by
  obtain ⟨hr, n, h⟩ := h
  induction n using Nat.strong_induction_on generalizing c with
  | h n ih =>
    obtain hi | ⟨c', m, hp, hlt, hr', h'⟩ := h.proceed hr
    · exact ⟨0, c, rfl, hi, hr, n, h⟩
    · exact (ih m hlt hr' h').proceed hp

end Runs

theorem Good.phase_of_isFiring (h : Good c) (hf : c.isFiring = false) : c.phase = .idle := by
  obtain ⟨-, n, h⟩ := h
  have hc : ∀ id < 2, c.state ≠ id + 2 := fun id hid hs => by
    rw [(isFiring_eq hid).2 hs] at hf
    cases hf
  cases h with
  | idle hp => exact hp
  | single _ h hs => exact absurd hs (hc _ h.lt)
  | loop _ _ _ h => exact absurd h.firing.state (hc _ (by omega))
  | firing _ _ _ _ h => exact absurd h.firing.state (hc _ (by omega))

section Exact

theorem Good.steps (h : Good c) (i : ℕ) : ∃ s, Steps i .absent c.history s := by
  obtain ⟨hr, n, h⟩ := h
  by_cases habsent : i = 0 ∨ c.count < i
  · exact ⟨_, (hr.absent i habsent).1⟩
  cases hc : c.canceled i with
  | true => exact ⟨_, hr.gone i hc⟩
  | false =>
    have hb : 1 ≤ i ∧ i ≤ c.count := by omega
    have hm : i ∈ c.listeners :=
      mem_selection.mpr ⟨hb.1, hb.2, by rw [hc]; rfl⟩
    cases h with
    | idle _ h | single _ h => exact ⟨_, (h.listeners i hm).2⟩
    | loop _ _ _ h =>
      rw [h.split] at hm
      obtain ⟨_, hs⟩ := (h.firing.turn (mem_append.mp hm)).steps
      exact ⟨_, hs⟩
    | @firing _ x _ _ visited rest _ _ h =>
      have hm : i ∈ visited ++ x :: rest :=
        h.split ▸ mem_selection.mpr ⟨hb.1, hb.2, by rw [kept, hc]; rfl⟩
      rcases mem_cons.mp (perm_middle.mem_iff.mp hm) with rfl | hm
      · exact ⟨_, h.steps hc⟩
      · obtain ⟨_, hs⟩ := (h.firing.turn (mem_append.mp hm)).steps
        exact ⟨_, hs⟩

/-- **Broadcast delivery.**  A listener receives events at most once and in the order in which they are
fired.  What it receives was fired after `listen` and arrives before `cancel`.  Outside a firing every
event that was started is finished, and a listener that was not cancelled before the end of the firing has
received it; the list is the listeners that are not cancelled, and they have the current event id.  A
firing comes to an end if the callbacks return. -/
theorem broadcast_exact (hrun : (new : BroadcastStreamController T).run actions = some c) (i : ℕ) :
    started c.history = List.range c.events ∧
      (received c.history i).Sublist (started c.history) ∧
      (∀ event data, .deliver i event data ∈ c.history →
        ∃ h₁ h₂ h₃ h₄, c.history = h₁ ++ .listen i ::
            (h₂ ++ .start event data :: (h₃ ++ .deliver i event data :: h₄)) ∧
          .cancel i ∉ h₁ ++ h₂ ++ h₃) ∧
      (c.isFiring = false → ∀ h₁ h event data, c.history = h₁ ++ .start event data :: h →
        .finish event ∈ h) ∧
      (c.isFiring = false → ∀ h₁ h₂ h event data,
        c.history = h₁ ++ .listen i :: (h₂ ++ .start event data :: h) → .cancel i ∉ h₂ →
        ∃ h₃ h₄, h = h₃ ++ .finish event :: h₄ ∧ (.cancel i ∉ h₃ → .deliver i event data ∈ h₃)) ∧
      (c.isFiring = false → Ring c.next c.previous 0 c.listeners ∧
        ∀ j ∈ c.listeners, c.eventState j = c.state &&& STATE_EVENT_ID) ∧
      ∃ n c', c.run (List.replicate n .proceed) = some c' ∧ c'.isFiring = false := by
  have hg := run_good good_new hrun
  have hfn (hf : c.isFiring = false) (h₁ h : List (Occurrence T)) (event : ℕ) (data : T)
      (hsp : c.history = h₁ ++ .start event data :: h) : .finish event ∈ h := by
    have hcr := hg.1.finished h₁ h event data hsp
    rw [hg.phase_of_isFiring hf] at hcr
    exact hcr.resolve_right nofun
  obtain ⟨s, hst⟩ := hg.steps i
  have hi : ∀ {c : BroadcastStreamController T}, Good c → c.phase = .idle →
      ∃ id, Resting c id ∧ c.state = id := by
    intro c hg hp
    obtain ⟨-, n, h⟩ := hg
    cases h with
    | idle _ h hs => exact ⟨_, h, hs⟩
    | single hp' | loop _ _ hp' | firing _ _ hp' => cases hp.symm.trans hp'
  refine ⟨hg.1.started, ?_, fun event data hm => hst.deliver_mem hm, hfn, ?_, ?_, ?_⟩
  · exact (sublist_append_left _ _).trans hst.received_sublist
  · intro hf h₁ h₂ h event data hsp hc
    have hm : .finish event ∈ h :=
      hfn hf (h₁ ++ .listen i :: h₂) h event data (by rw [hsp]; simp)
    obtain ⟨h₃, h₄, rfl⟩ := append_of_mem hm
    refine ⟨h₃, h₄, rfl, fun hc' => hst.mem_deliver hsp ?_⟩
    intro hm
    rcases mem_append.mp hm with hm | hm
    · exact hc hm
    · exact hc' hm
  · intro hf
    obtain ⟨id, hr, hs⟩ := hi hg (hg.phase_of_isFiring hf)
    refine ⟨hr.linked.ring, fun j hj => ?_⟩
    rw [(hr.listeners j hj).1, hs, (and_eventId hr.lt).1]
  · obtain ⟨n, c', hrn', hp, hg'⟩ := exists_proceed hg
    obtain ⟨id, hr, hs⟩ := hi hg' hp
    exact ⟨n, c', hrn', (isFiring_eq hr.lt).1 hs⟩

/-- The callback of the first listener cancels the second one, whose turn has not come: the event is not
delivered to it although its firing started before. -/
theorem broadcast_cancel_while_firing : ∃ c,
    (new : BroadcastStreamController Unit).run
        [.listen, .listen, .add (), .proceed, .cancel 2, .proceed, .proceed] = some c ∧
      c.isFiring = false ∧
      c.history = [.listen 1, .listen 2, .start 0 (), .deliver 1 0 (), .cancel 2, .finish 0] :=
  ⟨_, rfl, rfl, rfl⟩

theorem broadcast_exact_late_listener : ∃ c,
    (new : BroadcastStreamController Unit).run
        [.listen, .listen, .add (), .proceed, .listen, .cancel 1, .proceed, .proceed, .proceed,
          .proceed, .proceed] = some c ∧
      c.isFiring = false ∧ Ring c.next c.previous 0 [2, 3] ∧ received c.history 2 = [0] ∧
      received c.history 3 = [] := by
  refine ⟨_, rfl, rfl, ?_, rfl, rfl⟩
  have he := @broadcast_exact Unit _ [.listen, .listen, .add (), .proceed, .listen, .cancel 1,
    .proceed, .proceed, .proceed, .proceed, .proceed] rfl 2
  exact (he.2.2.2.2.2.1 rfl).1

end Exact

end DartSdk.Async
