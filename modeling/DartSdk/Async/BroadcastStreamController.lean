import DartSdk.Lib.LinkedRing

/-!
# The synchronous broadcast stream controller

`_SyncBroadcastStreamController` with its `_BroadcastSubscription`s.  The links of the list are numbers:
`0` is the controller and the subscriptions are numbered from `1` in the order of `listen`.  A callback
of a listener runs while `_sendData` is not done, so where `_sendData` is belongs to the state, and
`listen`, `cancel` and `add` may come in any order during a callback and between events.  The callbacks
`onListen` and `onCancel` of the controller run when nothing is left to be done, so what they do are
further steps.  `history` says what happened; the controller does not read it.
-/

namespace DartSdk.Async

open LinkedRing

inductive Occurrence (T : Type)
  | listen (subscription : ℕ)
  | cancel (subscription : ℕ)
  /-- Events have numbers in the order in which their firing starts. -/
  | start (event : ℕ) (data : T)
  | deliver (subscription event : ℕ) (data : T)
  | finish (event : ℕ)
  deriving DecidableEq

/-- Where `_sendData` is. -/
inductive Phase (T : Type)
  | idle
  /-- The condition of the loop of `_forEachListener`. -/
  | loop (id link event : ℕ) (data : T)
  /-- The action of the loop. -/
  | firing (id subscription event : ℕ) (data : T)
  /-- The callback of the only listener. -/
  | single (subscription event : ℕ)

structure BroadcastStreamController (T : Type) where
  state : ℕ
  next : ℕ → ℕ
  previous : ℕ → ℕ
  eventState : ℕ → ℕ
  /-- `_isCanceled` of the subscriptions. -/
  canceled : ℕ → Bool
  /-- How many subscriptions there have been. -/
  count : ℕ
  /-- How many events there have been. -/
  events : ℕ
  phase : Phase T
  history : List (Occurrence T)

inductive Action (T : Type)
  | listen
  | cancel (subscription : ℕ)
  | add (data : T)
  /-- The callback returns, or the loop of `_forEachListener` goes on. -/
  | proceed

namespace BroadcastStreamController

def STATE_EVENT_ID : ℕ := 1
def STATE_FIRING : ℕ := 2
def STATE_CLOSED : ℕ := 4
/-- `_BroadcastSubscription._STATE_REMOVE_AFTER_FIRING`; its other bits are those of the controller. -/
def STATE_REMOVE_AFTER_FIRING : ℕ := 4

/-- `state & ~flag` -/
def clearFlag (state flag : ℕ) : ℕ := state ^^^ (state &&& flag)

variable {T : Type}

def new : BroadcastStreamController T where
  state := 0
  next := id
  previous := id
  eventState := fun _ => 0
  canceled := fun _ => false
  count := 0
  events := 0
  phase := .idle
  history := []

variable (c : BroadcastStreamController T)

def isFiring : Bool := c.state &&& STATE_FIRING ≠ 0

def isEmpty : Bool := c.next 0 = 0

def hasOneListener : Bool := c.next (c.next 0) = 0

/-- `_SyncBroadcastStreamController._mayAddEvent` -/
def mayAddEvent : Bool := c.state < STATE_CLOSED ∧ c.isFiring = false

def record (occurrence : Occurrence T) : BroadcastStreamController T :=
  { c with history := c.history ++ [occurrence] }

def setEventState (subscription eventState : ℕ) : BroadcastStreamController T :=
  { c with eventState := Function.update c.eventState subscription eventState }

def addListener (subscription : ℕ) : BroadcastStreamController T :=
  { c with
    next := insertNext c.next c.previous 0 subscription
    previous := insertPrevious c.previous 0 subscription
    eventState := Function.update c.eventState subscription (c.state &&& STATE_EVENT_ID) }

def removeListener (subscription : ℕ) : BroadcastStreamController T :=
  { c with
    next := unlinkNext c.next c.previous subscription
    previous := unlinkPrevious c.next c.previous subscription }

/-- `_subscribe`, with the constructor of `_BroadcastSubscription`. -/
def subscribe : BroadcastStreamController T :=
  let subscription := c.count + 1
  let c := c.record (.listen subscription)
  let c :=
    { c with
      count := subscription
      next := Function.update c.next subscription subscription
      previous := Function.update c.previous subscription subscription }
  c.addListener subscription

def recordCancel (subscription : ℕ) : BroadcastStreamController T :=
  if c.next subscription = subscription then c
  else if c.eventState subscription &&& STATE_FIRING ≠ 0 then
    c.setEventState subscription (c.eventState subscription ||| STATE_REMOVE_AFTER_FIRING)
  else c.removeListener subscription

/-- `cancel` of a subscription. -/
def cancel (subscription : ℕ) : BroadcastStreamController T :=
  if c.canceled subscription then c
  else
    let c := c.record (.cancel subscription)
    let c := { c with canceled := Function.update c.canceled subscription true }
    c.recordCancel subscription

/-- `_add` of a subscription: the callback is called. -/
def deliver (subscription event : ℕ) (data : T) : BroadcastStreamController T :=
  if c.canceled subscription then c else c.record (.deliver subscription event data)

/-- `_forEachListener`, up to its loop. -/
def forEachListener (event : ℕ) (data : T) : BroadcastStreamController T :=
  if c.isFiring then c
  else if c.isEmpty then c
  else
    let id := c.state &&& STATE_EVENT_ID
    let c := { c with state := c.state ^^^ (STATE_EVENT_ID ||| STATE_FIRING) }
    { c with phase := .loop id (c.next 0) event data }

/-- `_SyncBroadcastStreamController._sendData`, up to the first callback. -/
def sendData (event : ℕ) (data : T) : BroadcastStreamController T :=
  if c.isEmpty then c.record (.finish event)
  else if c.hasOneListener then
    let c := { c with state := c.state ||| STATE_FIRING }
    let subscription := c.next 0
    { c.deliver subscription event data with phase := .single subscription event }
  else c.forEachListener event data

/-- `add`; it throws while an event is fired. -/
def add (data : T) : BroadcastStreamController T :=
  if c.mayAddEvent then
    let event := c.events
    let c := c.record (.start event data)
    let c := { c with events := event + 1 }
    c.sendData event data
  else c

/-- The loop of `_forEachListener`: its condition and, if it holds, the body up to the callback. -/
def loopStep (id link event : ℕ) (data : T) : BroadcastStreamController T :=
  if link = 0 then
    { c.record (.finish event) with state := clearFlag c.state STATE_FIRING, phase := .idle }
  else if c.eventState link &&& STATE_EVENT_ID = id then
    let c := c.setEventState link (c.eventState link ||| STATE_FIRING)
    { c.deliver link event data with phase := .firing id link event data }
  else { c with phase := .loop id (c.next link) event data }

/-- The rest of the body after the callback. -/
def afterAction (id subscription event : ℕ) (data : T) : BroadcastStreamController T :=
  let c := c.setEventState subscription (c.eventState subscription ^^^ STATE_EVENT_ID)
  let link := c.next subscription
  let c :=
    if c.eventState subscription &&& STATE_REMOVE_AFTER_FIRING ≠ 0 then c.removeListener subscription
    else c
  let c := c.setEventState subscription (clearFlag (c.eventState subscription) STATE_FIRING)
  { c with phase := .loop id link event data }

def proceed : Option (BroadcastStreamController T) :=
  match c.phase with
  | .idle => none
  | .loop id link event data => some (c.loopStep id link event data)
  | .firing id subscription event data => some (c.afterAction id subscription event data)
  | .single _ event =>
    some { c.record (.finish event) with state := clearFlag c.state STATE_FIRING, phase := .idle }

/-- One step.  In the loop itself there is no code of a listener. -/
def step : Action T → Option (BroadcastStreamController T)
  | .proceed => c.proceed
  | .listen =>
    match c.phase with
    | .loop _ _ _ _ => none
    | _ => some c.subscribe
  | .cancel subscription =>
    match c.phase with
    | .loop _ _ _ _ => none
    | _ => if 1 ≤ subscription ∧ subscription ≤ c.count then some (c.cancel subscription) else none
  | .add data =>
    match c.phase with
    | .loop _ _ _ _ => none
    | _ => some (c.add data)

def run (actions : List (Action T)) : Option (BroadcastStreamController T) := actions.foldlM step c

/-- The subscriptions that are not cancelled, in the order of `listen`. -/
def listeners : List ℕ := ((List.range c.count).map (· + 1)).filter fun i => !c.canceled i

end BroadcastStreamController

end DartSdk.Async
