import Mathlib.Data.Finset.Card

/-!
# Parallel copies between variables (`ssa/codegen.dart`)

`SsaCodeGenerator.sequentializeCopies` turns the copies of the phis of a block, which are meant to happen
at once, into a sequence of assignments.  A destination that nobody reads any more can be assigned; when
there is none left, the rest are cycles, and one of them is broken with a temporary name.  The test for a
cycle also fires for a destination that has its value already, if its source was copied once more after
that: it is then assigned its own value again.

* `Good`: what holds at the loops, for the store that has been reached;
* `Good.process`, `Good.fire`: an assignment of the inner loop, and the use of the temporary name;
* `undone_cycle`: when no destination is ready, the source of one that has no value yet has none either;
* **`sequentializeCopies_spec`**: the procedure ends, every destination has the initial value of its
  source, and nothing else changes but the temporary name.
-/

namespace DartSdk.Compiler

open List Option Function

structure Copy where
  source : String
  destination : String
  deriving DecidableEq

/-- The variables of `sequentializeCopies`, with the assignments that were made. -/
structure CopyState where
  currentLocation : String → Option String
  initialValue : String → Option String
  worklist : List String
  ready : List String
  /-- The calls of `doAssignment`: target and source. -/
  assignments : List (String × String)

namespace CopyState

section

variable (s : CopyState)

def new : CopyState where
  currentLocation := fun _ => none
  initialValue := fun _ => none
  worklist := []
  ready := []
  assignments := []

def doAssignment (target source : String) : CopyState :=
  { s with assignments := s.assignments ++ [(target, source)] }

def setLocation (name location : String) : CopyState :=
  { s with currentLocation := update s.currentLocation name (some location) }

def addReady (name : String) : CopyState := { s with ready := s.ready ++ [name] }

/-- The body of the first loop. -/
def addCopy (copy : Copy) : CopyState :=
  { s with
    currentLocation := update s.currentLocation copy.source (some copy.source)
    initialValue := update s.initialValue copy.destination (some copy.source)
    worklist := s.worklist ++ [copy.destination] }

/-- The body of the second loop. -/
def checkReady (copy : Copy) : CopyState :=
  if s.currentLocation copy.destination = none then s.addReady copy.destination else s

/-- The body of the inner loop. -/
def process (destination : String) : Option CopyState := do
  let s := { s with ready := s.ready.dropLast }
  let source ← s.initialValue destination
  let copy ← s.currentLocation source
  let s := s.doAssignment destination copy
  let s := s.setLocation source destination
  if source = copy ∧ s.initialValue source ≠ none then some (s.addReady source) else some s

end

/-- `while (!ready.isEmpty)` -/
def drain : ℕ → CopyState → Option CopyState
  | 0, _ => none
  | fuel + 1, s =>
    match s.ready.getLast? with
    | none => some s
    | some destination => s.process destination >>= drain fuel

/-- The rest of the body of the outer loop. -/
def checkCycle (tempName : String) (s : CopyState) (current : String) : CopyState :=
  let s := { s with worklist := s.worklist.dropLast }
  if s.currentLocation current ≠ none ∧
      some current ≠ (s.initialValue current).bind s.currentLocation then
    let s := s.doAssignment tempName current
    let s := s.setLocation current tempName
    s.addReady current
  else s

/-- `while (!worklist.isEmpty)` -/
def loop (tempName : String) : ℕ → CopyState → Option CopyState
  | 0, _ => none
  | fuel + 1, s =>
    match s.worklist.getLast? with
    | none => some s
    | some current => do
      let s ← s.drain fuel
      loop tempName fuel (s.checkCycle tempName current)

end CopyState

open CopyState

/-- The copies without those of a variable to itself. -/
def prunedCopies (copies : List Copy) : List Copy := copies.filter fun copy => copy.source ≠ copy.destination

/-- The assignments in the order in which they are made. -/
def sequentializeCopies (fuel : ℕ) (copies : List Copy) (tempName : String) :
    Option (List (String × String)) := do
  let copies := prunedCopies copies
  let s := copies.foldl addCopy new
  let s := copies.foldl checkReady s
  let s ← s.loop tempName fuel
  return s.assignments

section Store

variable {V : Type} (store : String → V) (assignments : List (String × String)) {target source : String}

/-- What the assignments do to the variables. -/
def execute : String → V :=
  assignments.foldl (fun store assignment => update store assignment.1 (store assignment.2)) store

theorem execute_append : execute store (assignments ++ [(target, source)]) =
    update (execute store assignments) target (execute store assignments source) := by
  unfold execute
  rw [foldl_append]
  rfl

end Store

section Invariant

/-- The variable whose initial value the variable has after the assignments. -/
def holds (s : CopyState) (name : String) : String := execute id s.assignments name

theorem execute_eq {V : Type} (store : String → V) (assignments : List (String × String)) (name : String) :
    execute store assignments name = store (execute id assignments name) := by
  induction assignments using List.reverseRecOn generalizing name with
  | nil => rfl
  | append_singleton assignments assignment ih =>
    obtain ⟨target, _⟩ := assignment
    rw [execute_append, execute_append]
    by_cases hname : name = target
    · rw [hname, update_self, update_self, ih]
    · rw [update_of_ne hname, update_of_ne hname, ih]

/-- The copies as a map from destinations to sources. -/
structure Parallel where
  initialValue : String → Option String
  destinations : Finset String
  tempName : String
  destination : ∀ d, d ∈ destinations ↔ ∃ v, initialValue d = some v
  ne : ∀ d v, initialValue d = some v → d ≠ v
  temp : ∀ d v, initialValue d = some v → d ≠ tempName ∧ v ≠ tempName

/-- What holds at the loops.  `assigned` are the destinations that have been assigned. -/
structure Good (P : Parallel) (s : CopyState) (assigned : Set String) : Prop where
  initial : s.initialValue = P.initialValue
  isSource : ∀ v, s.currentLocation v ≠ none ↔ ∃ d, P.initialValue d = some v
  kept : ∀ v, v ∉ assigned → v ≠ P.tempName → holds s v = v
  finished : ∀ d ∈ assigned, ∃ v, P.initialValue d = some v ∧ holds s d = v ∧
    s.currentLocation v ≠ some v ∧ s.currentLocation d ≠ some d
  location : ∀ v e, s.currentLocation v = some e →
    e = v ∨ e = P.tempName ∨ e ∈ assigned ∧ P.initialValue e = some v
  waiting : ∀ d v, P.initialValue d = some v → d ∉ assigned → d ∈ s.ready ∨ s.currentLocation d = some d
  ready : ∀ d ∈ s.ready, (∃ v, P.initialValue d = some v) ∧ s.currentLocation d ≠ some d
  /-- The temporary name has the value that is read from it. -/
  temporary : ∀ v d, s.currentLocation v = some P.tempName → P.initialValue d = some v →
    d ∉ assigned ∨ d ∈ s.ready → holds s P.tempName = v

/-- How often the inner loop can go on. -/
def Parallel.remaining (P : Parallel) (s : CopyState) : ℕ :=
  s.ready.length + (P.destinations.filter fun d => s.currentLocation d = some d).card

variable {P : Parallel} {s : CopyState} {assigned : Set String} {x v : String} {names : List String}

/-- What is read for a destination that is ready is the initial value of its source. -/
theorem Good.holds_location (h : Good P s assigned) (hx : x ∈ s.ready) {e : String}
    (hv : P.initialValue x = some v) (he : s.currentLocation v = some e) : holds s e = v := by
  rcases h.location v e he with rfl | rfl | ⟨ha, hsource⟩
  · refine h.kept e (fun ha => ?_) (P.temp x e hv).2
    obtain ⟨_, -, -, -, hs⟩ := h.finished e ha
    exact hs he
  · exact h.temporary v x he hv (.inr hx)
  · obtain ⟨_, hv', hh, -⟩ := h.finished e ha
    rw [hh]
    exact some.inj (hv'.symm.trans hsource)

/-- The state after `x` has been assigned from `e`, the location of the value of `v`. -/
def CopyState.assign (s : CopyState) (names : List String) (x v e : String) : CopyState :=
  { s with
    ready := names ++ if v = e ∧ s.initialValue v ≠ none then [v] else []
    assignments := s.assignments ++ [(x, e)]
    currentLocation := update s.currentLocation v (some x) }

theorem process_eq {e : String} (hr : s.ready = names ++ [x])
    (hv : s.initialValue x = some v) (he : s.currentLocation v = some e) :
    s.process x = some (s.assign names x v e) := by
  unfold CopyState.process CopyState.assign
  simp only [hr, dropLast_concat, hv, he, bind_eq_bind, bind_some, doAssignment,
    setLocation, addReady]
  split_ifs
  · rfl
  · rw [append_nil]

theorem remaining_process {e : String} (hr : s.ready = names ++ [x])
    (he : s.currentLocation v = some e) (hxv : x ≠ v)
    (hds : s.initialValue v ≠ none → v ∈ P.destinations) :
    P.remaining (s.assign names x v e) < P.remaining s := by
  have hs : (P.destinations.filter fun d => update s.currentLocation v (some x) d = some d) ⊆
      (P.destinations.filter fun d => s.currentLocation d = some d).erase v := by
    intro d hd
    obtain ⟨hm, hl⟩ := Finset.mem_filter.mp hd
    have hdv : d ≠ v := by
      rintro rfl
      rw [update_self] at hl
      exact hxv (some.inj hl)
    rw [update_of_ne hdv] at hl
    exact Finset.mem_erase.mpr ⟨hdv, Finset.mem_filter.mpr ⟨hm, hl⟩⟩
  have hcr := Finset.card_le_card hs
  unfold Parallel.remaining CopyState.assign
  rw [hr, length_append, length_append]
  split_ifs with hc
  · have hm : v ∈ P.destinations.filter fun d => s.currentLocation d = some d :=
      Finset.mem_filter.mpr ⟨hds hc.2, by rw [he, ← hc.1]⟩
    have hp := Finset.card_pos.mpr ⟨v, hm⟩
    rw [Finset.card_erase_of_mem hm] at hcr
    simp only [length_singleton]
    omega
  · have hle := Finset.card_erase_le (s := P.destinations.filter fun d => s.currentLocation d = some d) (a := v)
    simp only [length_nil, length_singleton]
    omega

/-- A name is assigned and becomes the location of the value of `y`. -/
structure Moves (s s' : CopyState) (y target source : String) : Prop where
  assignments : s'.assignments = s.assignments ++ [(target, source)]
  location : s'.currentLocation = update s.currentLocation y (some target)

namespace Moves

variable {s' : CopyState} {y name target source : String} (h : Moves s s' y target source)

include h

theorem holds_eq : holds s' name = if name = target then holds s source else holds s name := by
  unfold holds
  rw [h.assignments, execute_append]
  split_ifs with hn
  · rw [hn, update_self]
  · rw [update_of_ne hn]

theorem self : s'.currentLocation y = some target := by
  rw [h.location, update_self]

theorem of_ne (hne : name ≠ y) : s'.currentLocation name = s.currentLocation name := by
  rw [h.location, update_of_ne hne]

theorem ne_none (hy : s.currentLocation y ≠ none) :
    s'.currentLocation name ≠ none ↔ s.currentLocation name ≠ none := by
  by_cases hname : name = y
  · rw [hname, h.self]
    exact iff_of_true (by simp) hy
  · rw [h.of_ne hname]

/-- Nobody is at its own location who was not before, and the one that is moved is not any more. -/
theorem ne_self (hy : target ≠ y) (hn : name = y ∨ s.currentLocation name ≠ some name) :
    s'.currentLocation name ≠ some name := by
  by_cases hne : name = y
  · rw [hne, h.self]
    exact fun heq => hy (some.inj heq)
  · rw [h.of_ne hne]
    exact hn.resolve_left hne

end Moves

theorem Good.process (h : Good P s assigned) (hls : s.ready.getLast? = some x) :
    ∃ s', s.process x = some s' ∧ Good P s' (insert x assigned) ∧
      P.remaining s' < P.remaining s ∧ s'.worklist = s.worklist ∧
      ∀ d ∈ s.ready, d ∈ s'.ready ∨ d = x := by
  obtain ⟨names, hr⟩ := getLast?_eq_some_iff.mp hls
  have hx : x ∈ s.ready := by rw [hr]; simp
  obtain ⟨⟨v, hv⟩, hs⟩ := h.ready x hx
  obtain ⟨e, he⟩ := ne_none_iff_exists'.mp ((h.isSource v).mpr ⟨x, hv⟩)
  have hhl := h.holds_location hx hv he
  have hxv : x ≠ v := P.ne x v hv
  have ht := P.temp x v hv
  refine ⟨_, process_eq hr (by rw [h.initial, hv]) he, ?_, ?_, rfl, ?_⟩
  · set s' := s.assign names x v e
    have hm : Moves s s' v x e := ⟨rfl, rfl⟩
    -- A source is added when it is read for the first time.
    have had : ∀ d ∈ s'.ready, d ∈ s.ready ∨
        d = v ∧ s.currentLocation v = some v ∧ ∃ w, P.initialValue v = some w := by
      intro d hd
      rcases mem_append.mp hd with hd | hd
      · exact .inl (by rw [hr]; exact mem_append_left _ hd)
      · split_ifs at hd with hcn
        · rw [h.initial] at hcn
          exact .inr ⟨mem_singleton.mp hd, hcn.1 ▸ he, ne_none_iff_exists'.mp hcn.2⟩
        · cases hd
    have hf : s.currentLocation v = some v → v ∉ assigned := by
      intro hs ha
      obtain ⟨_, -, -, -, hne⟩ := h.finished v ha
      exact hne hs
    refine ⟨h.initial, ?_, ?_, ?_, ?_, ?_, ?_, ?_⟩
    · exact fun name => (hm.ne_none (by rw [he]; simp)).trans (h.isSource name)
    · intro name hn hne
      rw [hm.holds_eq, if_neg fun heq => hn (.inl heq)]
      exact h.kept name (fun hmm => hn (.inr hmm)) hne
    · rintro d hd
      by_cases hdx : d = x
      · refine ⟨v, by rw [hdx, hv], by rw [hm.holds_eq, if_pos hdx, hhl],
          hm.ne_self hxv (.inl rfl), hm.ne_self hxv (.inr ?_)⟩
        rw [hdx]
        exact hs
      · obtain ⟨w, hw, hh, hlw, hld⟩ := h.finished d (hd.resolve_left hdx)
        exact ⟨w, hw, by rw [hm.holds_eq, if_neg hdx, hh], hm.ne_self hxv (.inr hlw),
          hm.ne_self hxv (.inr hld)⟩
    · intro w e' he'
      by_cases hwv : w = v
      · rw [hwv, hm.self] at he'
        rw [hwv, ← some.inj he']
        exact .inr (.inr ⟨.inl rfl, hv⟩)
      · rw [hm.of_ne hwv] at he'
        exact (h.location w e' he').imp_right fun h => h.imp_right fun h => ⟨.inr h.1, h.2⟩
    · intro d w hw hd
      have hdx : d ≠ x := fun heq => hd (.inl heq)
      rcases h.waiting d w hw (fun hmm => hd (.inr hmm)) with hmm | hl
      · rw [hr] at hmm
        refine .inl (mem_append_left _ ?_)
        exact (mem_append.mp hmm).resolve_right fun hmm => hdx (mem_singleton.mp hmm)
      by_cases hdv : d = v
      · have hve : v = e := some.inj ((hdv ▸ hl).symm.trans he)
        refine .inl (mem_append_right _ ?_)
        rw [if_pos ⟨hve, by rw [h.initial, ← hdv, hw]; simp⟩, hdv]
        exact mem_singleton_self v
      · exact .inr ((hm.of_ne hdv).trans hl)
    · intro d hd
      rcases had d hd with hd | ⟨rfl, -, hw⟩
      · obtain ⟨hw, hld⟩ := h.ready d hd
        exact ⟨hw, hm.ne_self hxv (.inr hld)⟩
      · exact ⟨hw, hm.ne_self hxv (.inl rfl)⟩
    · intro w d hl hd hc
      have hwv : w ≠ v := by
        rintro rfl
        rw [hm.self] at hl
        exact ht.1 (some.inj hl)
      rw [hm.of_ne hwv] at hl
      rw [hm.holds_eq, if_neg (Ne.symm ht.1)]
      refine h.temporary w d hl hd ?_
      rcases hc with hc | hc
      · exact .inl fun hmm => hc (.inr hmm)
      · rcases had d hc with hmm | ⟨rfl, hs, -⟩
        · exact .inr hmm
        · exact .inl (hf hs)
  · refine remaining_process hr he hxv fun hne => ?_
    rw [h.initial] at hne
    exact (P.destination v).mpr (ne_none_iff_exists'.mp hne)
  · intro d hd
    rw [hr] at hd
    exact (mem_append.mp hd).imp (mem_append_left _) mem_singleton.mp

/-- **The inner loop ends**, and every destination that was ready is assigned. -/
theorem Good.drain (fuel : ℕ) (s : CopyState) (assigned : Set String) (h : Good P s assigned)
    (hf : P.remaining s < fuel) :
    ∃ s' assigned', s.drain fuel = some s' ∧ Good P s' assigned' ∧ s'.ready = [] ∧
      s'.worklist = s.worklist ∧ assigned ⊆ assigned' ∧ ∀ d ∈ s.ready, d ∈ assigned' := by
  induction fuel generalizing s assigned with
  | zero => omega
  | succ fuel ih =>
    unfold CopyState.drain
    cases hl : s.ready.getLast? with
    | none =>
      have hn := getLast?_eq_none_iff.mp hl
      exact ⟨s, assigned, rfl, h, hn, rfl, subset_rfl, fun d hd => by rw [hn] at hd; cases hd⟩
    | some x =>
      obtain ⟨s₁, hp, h₁, hls, hw, hr⟩ := h.process hl
      obtain ⟨s', assigned', hdr, h', hn, hw', hs, hrd'⟩ :=
        ih s₁ (insert x assigned) h₁ (by omega)
      refine ⟨s', assigned', ?_, h', hn, hw'.trans hw, ?_, ?_⟩
      · show s.process x >>= CopyState.drain fuel = some s'
        rw [hp]
        exact hdr
      · exact fun d hd => hs (.inr hd)
      · intro d hd
        rcases hr d hd with hd | rfl
        · exact hrd' d hd
        · exact hs (.inl rfl)

section

variable (h : Good P s assigned) (hr : s.ready = [])

include h hr

theorem Good.undone {d : String} (hv : P.initialValue d = some v) (hd : d ∉ assigned) :
    s.currentLocation d = some d := by
  refine (h.waiting d v hv hd).resolve_left ?_
  rw [hr]
  simp

/-- **When no destination is ready, the ones that are not assigned are on cycles**: the source of such a
destination is one too, and its value has not been copied. -/
theorem undone_cycle {d : String} (hv : P.initialValue d = some v) (hd : d ∉ assigned) :
    v ∉ assigned ∧ (∃ w, P.initialValue v = some w) ∧ s.currentLocation v = some v := by
  classical
  let undone := P.destinations.filter fun d => d ∉ assigned
  have hm : ∀ u, u ∈ undone ↔ (∃ w, P.initialValue u = some w) ∧ u ∉ assigned := by
    intro u
    rw [Finset.mem_filter, P.destination]
  have hsl : ∀ u ∈ undone, s.currentLocation u = some u := by
    intro u hu
    obtain ⟨⟨w, hw⟩, hu⟩ := (hm u).mp hu
    exact h.undone hr hw hu
  -- Such a destination is read by another one, and no two of them are read by the same one.
  have hs : undone ⊆ undone.image fun d => (P.initialValue d).getD "" := by
    intro u hu
    have hl := hsl u hu
    obtain ⟨d', hd'⟩ := (h.isSource u).mp (by rw [hl]; simp)
    refine Finset.mem_image.mpr ⟨d', (hm d').mpr ⟨⟨u, hd'⟩, fun ha => ?_⟩, by rw [hd']; rfl⟩
    obtain ⟨w, hw, -, hne, -⟩ := h.finished d' ha
    rw [some.inj (hw.symm.trans hd')] at hne
    exact hne hl
  have heq := Finset.eq_of_subset_of_card_le hs Finset.card_image_le
  have hvn : v ∈ undone := by
    rw [heq]
    exact Finset.mem_image.mpr ⟨d, (hm d).mpr ⟨⟨v, hv⟩, hd⟩, by rw [hv]; rfl⟩
  exact ⟨((hm v).mp hvn).2, ((hm v).mp hvn).1, hsl v hvn⟩

/-- The temporary name gets the value of a destination, which is then ready (again). -/
theorem Good.fire (hv : P.initialValue x = some v) (hl : s.currentLocation x ≠ none)
    (worklist : List String) :
    Good P
      { s with
        worklist := worklist
        ready := [x]
        assignments := s.assignments ++ [(P.tempName, x)]
        currentLocation := update s.currentLocation x (some P.tempName) } assigned := by
  set s' : CopyState := CopyState.mk _ _ _ _ _
  have hm : Moves s s' x P.tempName x := ⟨rfl, rfl⟩
  have hne := (P.temp x v hv).1.symm
  refine ⟨h.initial, ?_, ?_, ?_, ?_, ?_, ?_, ?_⟩
  · exact fun name => (hm.ne_none hl).trans (h.isSource name)
  · intro name hn hne
    rw [hm.holds_eq, if_neg hne]
    exact h.kept name hn hne
  · intro d hd
    obtain ⟨w, hw, hh, hlw, hld⟩ := h.finished d hd
    refine ⟨w, hw, ?_, hm.ne_self hne (.inr hlw), hm.ne_self hne (.inr hld)⟩
    rw [hm.holds_eq, if_neg (P.temp d w hw).1, hh]
  · intro w e he
    by_cases hwx : w = x
    · rw [hwx, hm.self] at he
      exact .inr (.inl (some.inj he).symm)
    · rw [hm.of_ne hwx] at he
      exact h.location w e he
  · intro d w hw hd
    by_cases hdx : d = x
    · exact .inl (by rw [hdx]; exact mem_singleton_self x)
    · rw [hm.of_ne hdx]
      exact .inr (h.undone hr hw hd)
  · intro d hd
    obtain rfl := mem_singleton.mp hd
    exact ⟨⟨v, hv⟩, hm.ne_self hne (.inl rfl)⟩
  · intro w d hlc hd hc
    rw [hm.holds_eq, if_pos rfl]
    by_cases hwx : w = x
    · -- Only if it is on a cycle it is still read.
      subst hwx
      have hu : d ∉ assigned := by
        refine hc.resolve_right fun hmm => ?_
        exact P.ne d w hd (mem_singleton.mp hmm)
      exact h.kept w (undone_cycle h hr hd hu).1 (P.temp w v hv).1
    rw [hm.of_ne hwx] at hlc
    have ha : d ∈ assigned := by
      by_contra hu
      have hw := (undone_cycle h hr hd hu).2.2
      exact (P.temp d w hd).2 (some.inj (hw.symm.trans hlc))
    have hdx : d = x := mem_singleton.mp (hc.resolve_left (not_not.mpr ha))
    obtain ⟨_, hw', hh, -⟩ := h.finished d ha
    rw [← hdx, hh]
    exact some.inj (hw'.symm.trans hd)

end

/-- What holds at the outer loop. -/
structure Pending (P : Parallel) (s : CopyState) (assigned : Set String) : Prop where
  good : Good P s assigned
  worklist : ∀ d ∈ s.worklist, ∃ v, P.initialValue d = some v
  covered : ∀ d v, P.initialValue d = some v → d ∉ assigned → d ∈ s.worklist ∨ d ∈ s.ready
  /-- What is still ready after the last round has its value. -/
  last : s.worklist = [] → ∀ d ∈ s.ready, d ∈ assigned

theorem Good.checkCycle (h : Good P s assigned) (hr : s.ready = [])
    (hn : s.worklist = names ++ [x]) (hwr : ∀ d ∈ s.worklist, ∃ v, P.initialValue d = some v)
    (hc : ∀ d v, P.initialValue d = some v → d ∉ assigned → d ∈ s.worklist) :
    Pending P (s.checkCycle P.tempName x) assigned ∧
      (s.checkCycle P.tempName x).worklist = names ∧ (s.checkCycle P.tempName x).ready.length ≤ 1 := by
  have hx : x ∈ s.worklist := by rw [hn]; simp
  obtain ⟨v, hv⟩ := hwr x hx
  have hdl : s.worklist.dropLast = names := by rw [hn, dropLast_concat]
  have hwr' : ∀ d ∈ names, ∃ v, P.initialValue d = some v := fun d hd =>
    hwr d (by rw [hn]; exact mem_append_left _ hd)
  have hc' : ∀ d w, P.initialValue d = some w → d ∉ assigned → d ∈ names ∨ d = x := by
    intro d w hw hd
    have hm := hc d w hw hd
    rw [hn] at hm
    exact (mem_append.mp hm).imp_right mem_singleton.mp
  unfold CopyState.checkCycle doAssignment setLocation addReady
  dsimp only
  rw [hdl, hr, h.initial, hv]
  by_cases hfires : s.currentLocation x ≠ none ∧ some x ≠ (some v).bind s.currentLocation
  · rw [if_pos hfires]
    have hf := h.fire hr hv hfires.1 names
    rw [h.initial] at hf
    refine ⟨⟨hf, hwr', ?_, ?_⟩, rfl, Nat.le_refl 1⟩
    · intro d w hw hd
      refine (hc' d w hw hd).imp_right fun hdx => ?_
      rw [hdx]
      exact mem_singleton_self x
    · -- A cycle has another destination, which is not done either.
      intro hnl d hd
      obtain rfl := mem_singleton.mp hd
      by_contra hundone
      obtain ⟨hvn, ⟨w, hw⟩, -⟩ := undone_cycle h hr hv hundone
      have hnl : names = [] := hnl
      rcases hc' v w hw hvn with hm | hm
      · rw [hnl] at hm
        cases hm
      · exact P.ne d v hv hm.symm
  · rw [if_neg hfires]
    refine ⟨⟨⟨rfl, h.isSource, h.kept, h.finished, h.location, ?_, ?_, ?_⟩, hwr', ?_, ?_⟩,
      rfl, Nat.zero_le 1⟩
    · exact fun d w hw hd => hr ▸ h.waiting d w hw hd
    · exact nofun
    · exact fun w d hl hd hcs => h.temporary w d hl hd (hr ▸ hcs)
    · intro d w hw hd
      refine .inl ((hc' d w hw hd).resolve_right ?_)
      rintro rfl
      have hs := h.undone hr hw hd
      -- Its source would be at the destination, which is not done.
      have hl : s.currentLocation v = some d := by
        by_contra hne
        exact hfires ⟨by rw [hs]; simp, fun heq => hne heq.symm⟩
      rcases h.location v d hl with heq | heq | ⟨ha, -⟩
      · exact P.ne d v hv heq
      · exact (P.temp d v hv).1 heq
      · exact hd ha
    · exact nofun

/-- **The outer loop ends**, and every destination is assigned. -/
theorem Pending.loop {n : ℕ} (hn : 1 ≤ n) (fuel : ℕ) (s : CopyState) (assigned : Set String)
    (h : Pending P s assigned) (hr : s.ready.length ≤ n) (hf : s.worklist.length + n + P.destinations.card + 1 < fuel) :
    ∃ s' assigned', s.loop P.tempName fuel = some s' ∧ Good P s' assigned' ∧
      ∀ d v, P.initialValue d = some v → d ∈ assigned' := by
  induction fuel generalizing s assigned with
  | zero => omega
  | succ fuel ih =>
    unfold CopyState.loop
    cases hl : s.worklist.getLast? with
    | none =>
      have hnl := getLast?_eq_none_iff.mp hl
      refine ⟨s, assigned, rfl, h.good, fun d v hv => ?_⟩
      by_contra hd
      rcases h.covered d v hv hd with hm | hm
      · rw [hnl] at hm
        cases hm
      · exact hd (h.last hnl d hm)
    | some x =>
      obtain ⟨names, hnm⟩ := getLast?_eq_some_iff.mp hl
      have hln : s.worklist.length = names.length + 1 := by rw [hnm]; simp
      have hrm : P.remaining s ≤ s.ready.length + P.destinations.card :=
        Nat.add_le_add_left (Finset.card_filter_le _ _) _
      obtain ⟨s₁, assigned₁, hdr, h₁, hnl, hw, hs, hdn⟩ :=
        Good.drain fuel s assigned h.good (by omega)
      obtain ⟨hp, hnm', hrd'⟩ := h₁.checkCycle hnl (hw.trans hnm)
        (by rw [hw]; exact h.worklist) (by
          intro d v hv hd
          rw [hw]
          refine (h.covered d v hv fun hm => hd (hs hm)).resolve_right fun hm => ?_
          exact hd (hdn d hm))
      obtain ⟨s', assigned', hlp, hg⟩ := ih (s₁.checkCycle P.tempName x) assigned₁ hp
        (by omega) (by rw [hnm']; omega)
      refine ⟨s', assigned', ?_, hg⟩
      rw [hdr]
      exact hlp

end Invariant

section Start

variable {copies : List Copy}

def added (copies : List Copy) : CopyState := copies.foldl addCopy new

theorem added_spec (hnd : (copies.map Copy.destination).Nodup) :
    (∀ d v, (added copies).initialValue d = some v ↔ ⟨v, d⟩ ∈ copies) ∧
      (∀ v e, (added copies).currentLocation v = some e ↔ e = v ∧ ∃ d, ⟨v, d⟩ ∈ copies) ∧
      (added copies).worklist = copies.map Copy.destination ∧
      (added copies).ready = [] ∧ (added copies).assignments = [] := by
  induction copies using List.reverseRecOn with
  | nil => simp [added, new]
  | append_singleton copies copy ih =>
    rw [map_append, nodup_append] at hnd
    obtain ⟨hvl, hl, hw, hr, ha⟩ := ih hnd.1
    have hn : ∀ v, ⟨v, copy.destination⟩ ∉ copies := fun v hm =>
      hnd.2.2 _ (List.mem_map_of_mem hm) _ (mem_singleton_self _) rfl
    rw [added, foldl_append]
    refine ⟨?_, ?_, ?_, hr, ha⟩
    · intro d v
      show update (added copies).initialValue copy.destination (some copy.source) d = some v ↔ _
      rw [mem_append, mem_singleton]
      by_cases hd : d = copy.destination
      · rw [hd, update_self]
        refine ⟨fun h => .inr ?_, fun h => ?_⟩
        · rw [← some.inj h]
        · rcases h with h | h
          · exact absurd h (hn v)
          · rw [← h]
      · rw [update_of_ne hd]
        refine ⟨fun h => .inl ((hvl d v).mp h), fun h => (hvl d v).mpr (h.resolve_right ?_)⟩
        rintro rfl
        exact hd rfl
    · intro v e
      show update (added copies).currentLocation copy.source (some copy.source) v = some e ↔ _
      by_cases hv : v = copy.source
      · have hm : ∃ d, ⟨copy.source, d⟩ ∈ copies ++ [copy] := ⟨copy.destination, by simp⟩
        rw [hv, update_self, and_iff_left hm, some_inj, eq_comm]
      have hne : ∀ d, ⟨v, d⟩ ≠ copy := by
        rintro d rfl
        exact hv rfl
      rw [update_of_ne hv, hl v e]
      simp [hne]
    · show (added copies).worklist ++ [copy.destination] = _
      rw [hw, map_append]
      rfl

theorem foldl_checkReady (s : CopyState) :
    copies.foldl checkReady s =
      { s with
        ready := s.ready ++ (copies.map Copy.destination).filter fun d => s.currentLocation d = none } := by
  induction copies generalizing s with
  | nil => simp
  | cons _ copies ih =>
    rw [foldl_cons, ih]
    unfold checkReady addReady
    split_ifs with hn
    · simp [hn]
    · simp [hn]

section

variable (hnd : (copies.map Copy.destination).Nodup)

include hnd

theorem mem_destinations {d : String} :
    d ∈ copies.map Copy.destination ↔ ∃ v, (added copies).initialValue d = some v := by
  obtain ⟨hvl, -⟩ := added_spec hnd
  rw [List.mem_map]
  constructor
  · rintro ⟨copy, hmem, rfl⟩
    exact ⟨copy.source, (hvl _ _).mpr hmem⟩
  · rintro ⟨v, hv⟩
    exact ⟨⟨v, d⟩, (hvl d v).mp hv, rfl⟩

variable {tempName : String}
  (ht : ∀ copy ∈ copies, copy.source ≠ tempName ∧ copy.destination ≠ tempName)

include ht

def parallel (hnd : (copies.map Copy.destination).Nodup)
    (ht : ∀ copy ∈ copies, copy.source ≠ tempName ∧ copy.destination ≠ tempName)
    (hne : ∀ copy ∈ copies, copy.source ≠ copy.destination) : Parallel where
  initialValue := (added copies).initialValue
  destinations := (copies.map Copy.destination).toFinset
  tempName := tempName
  destination := fun d => by rw [List.mem_toFinset, mem_destinations hnd]
  ne := fun d v hv => (hne _ (((added_spec hnd).1 d v).mp hv)).symm
  temp := fun d v hv => (ht _ (((added_spec hnd).1 d v).mp hv)).symm

theorem pending_start (hne : ∀ copy ∈ copies, copy.source ≠ copy.destination) :
    Pending (parallel hnd ht hne) (copies.foldl checkReady (added copies)) ∅ := by
  obtain ⟨hvl, hl, hw, hr, ha⟩ := added_spec hnd
  rw [foldl_checkReady]
  refine ⟨⟨rfl, ?_, ?_, fun d hd => hd.elim, ?_, ?_, ?_, ?_⟩, ?_, ?_, ?_⟩
  · intro v
    rw [ne_none_iff_exists']
    simp [parallel, hl, hvl]
  · intro v _ _
    rw [ha]
    rfl
  · intro v e he
    exact .inl ((hl v e).mp he).1
  · intro d v hv _
    cases hd : (added copies).currentLocation d with
    | none =>
      refine .inl (mem_append_right _ (mem_filter.mpr ⟨(mem_destinations hnd).mpr ⟨v, hv⟩, ?_⟩))
      exact decide_eq_true hd
    | some e => exact .inr (by rw [((hl d e).mp hd).1])
  · intro d hd
    rw [hr, nil_append] at hd
    obtain ⟨hm, hnn⟩ := mem_filter.mp hd
    refine ⟨(mem_destinations hnd).mp hm, ?_⟩
    rw [of_decide_eq_true hnn]
    simp
  · intro v d hlc hd _
    obtain ⟨heq, -⟩ := (hl v tempName).mp hlc
    exact absurd heq.symm (ht _ ((hvl d v).mp hd)).1
  · intro d hd
    exact (mem_destinations hnd).mp (hw ▸ hd)
  · intro d v hv _
    refine .inl ?_
    rw [hw]
    exact (mem_destinations hnd).mpr ⟨v, hv⟩
  · intro hn d hd
    have hn : (added copies).worklist = [] := hn
    rw [hw] at hn
    rw [hr, hn] at hd
    cases hd

end

/-- **The copies happen as if at once**: the procedure ends, every destination has the initial value of
its source, and no other variable but the temporary name is changed. -/
theorem sequentializeCopies_spec (copies : List Copy) (tempName : String)
    (hnd : (copies.map Copy.destination).Nodup)
    (ht : ∀ copy ∈ copies, copy.source ≠ tempName ∧ copy.destination ≠ tempName) {fuel : ℕ}
    (hfuel : 3 * copies.length + 3 < fuel) :
    ∃ assignments, sequentializeCopies fuel copies tempName = some assignments ∧
      ∀ {V : Type} (store : String → V),
        (∀ copy ∈ copies, execute store assignments copy.destination = store copy.source) ∧
        ∀ name, name ≠ tempName → (∀ copy ∈ copies, copy.destination ≠ name) →
          execute store assignments name = store name := by
  set pruned := prunedCopies copies with hp
  have hm : ∀ copy, copy ∈ pruned ↔ copy ∈ copies ∧ copy.source ≠ copy.destination := by
    intro copy
    rw [hp, prunedCopies, mem_filter, decide_eq_true_eq]
  have hn' : (pruned.map Copy.destination).Nodup := hnd.sublist (filter_sublist.map _)
  have htm' : ∀ copy ∈ pruned, copy.source ≠ tempName ∧ copy.destination ≠ tempName :=
    fun copy hc => ht copy ((hm copy).mp hc).1
  have hpn := pending_start hn' htm' fun copy hc => ((hm copy).mp hc).2
  obtain ⟨hvl, -, hw, hr, -⟩ := added_spec hn'
  have hl : pruned.length ≤ copies.length := length_filter_le _ _
  have hcr : (pruned.map Copy.destination).toFinset.card ≤ pruned.length :=
    (toFinset_card_le _).trans_eq (length_map _)
  have hrd' : (pruned.foldl checkReady (added pruned)).ready.length ≤ copies.length + 1 := by
    have := length_filter_le
      (fun d => (added pruned).currentLocation d = none) (pruned.map Copy.destination)
    rw [length_map] at this
    rw [foldl_checkReady, hr]
    simp only [nil_append]
    omega
  have hf' : (pruned.foldl checkReady (added pruned)).worklist.length +
      (copies.length + 1) + (pruned.map Copy.destination).toFinset.card + 1 < fuel := by
    rw [foldl_checkReady]
    rw [hw, length_map]
    omega
  obtain ⟨s', assigned, hs', hg, ha⟩ :=
    Pending.loop (Nat.le_add_left 1 _) fuel _ ∅ hpn hrd' hf'
  refine ⟨s'.assignments, ?_, fun store => ⟨?_, ?_⟩⟩
  · unfold sequentializeCopies
    rw [← hp]
    exact congrArg (· >>= fun s => some s.assignments) hs'
  · intro copy hc
    rw [execute_eq]
    by_cases hself : copy.source = copy.destination
    · -- Such a copy was removed, and its destination is not that of another one.
      have hnt : copy.destination ∉ assigned := by
        intro hm'
        obtain ⟨v, hv, -⟩ := hg.finished _ hm'
        obtain ⟨hc', hne⟩ := (hm _).mp ((hvl _ v).mp hv)
        have heq : copy = ⟨v, copy.destination⟩ :=
          inj_on_of_nodup_map hnd hc hc' rfl
        rw [heq] at hself
        exact hne hself
      rw [hself]
      exact congrArg store (hg.kept _ hnt (ht copy hc).2)
    · have hv : (added pruned).initialValue copy.destination = some copy.source :=
        (hvl _ _).mpr ((hm copy).mpr ⟨hc, hself⟩)
      obtain ⟨v, hv', hh, -⟩ := hg.finished _ (ha _ _ hv)
      rw [some.inj (hv.symm.trans hv')]
      exact congrArg store hh
  · intro name hnm hnt
    rw [execute_eq]
    refine congrArg store (hg.kept name (fun hm' => ?_) hnm)
    obtain ⟨v, hv, -⟩ := hg.finished name hm'
    exact hnt _ ((hm _).mp ((hvl name v).mp hv)).1 rfl

/-- A swap, and a third variable that reads one of the two. -/
theorem sequentializeCopies_swap :
    ∃ assignments, sequentializeCopies 20 [⟨"a", "b"⟩, ⟨"b", "a"⟩, ⟨"a", "a0"⟩, ⟨"a0", "c"⟩] "t" =
        some assignments ∧
      execute (id : String → String) assignments "b" = "a" ∧
      execute (id : String → String) assignments "a" = "b" := by
  obtain ⟨assignments, ha, hs⟩ := sequentializeCopies_spec
    [⟨"a", "b"⟩, ⟨"b", "a"⟩, ⟨"a", "a0"⟩, ⟨"a0", "c"⟩] "t" (by decide) (by decide)
    (show 3 * 4 + 3 < 20 by decide)
  obtain ⟨hd, -⟩ := hs id
  exact ⟨assignments, ha, hd ⟨"a", "b"⟩ (by simp),
    hd ⟨"b", "a"⟩ (by simp)⟩

end Start

end DartSdk.Compiler
