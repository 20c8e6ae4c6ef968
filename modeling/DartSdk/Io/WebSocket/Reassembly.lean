import DartSdk.Io.WebSocket.Unmask

/-!
# Reassembly of WebSocket messages

The frames of RFC 6455 and what they mean: a message is made of the payloads of its own frames, and a
control event has the payload of its own frame.  The transformer is followed through a stream of valid
frames that comes in buffers of any size.

* `Pending.round`, `Pending.loop`: a round, and a buffer, report what is next;
* `reassembly`: **the events are those of the frames**, as long as no control frame with a payload comes
  while the message before it has bytes, and no buffer is a view into a larger one.  The payload of such a
  control frame is added to the message, and taken with it.
-/

namespace DartSdk.Io.WebSocket

open List Option WebSocket

section Frames

inductive FrameType
  | continuation
  | text
  | binary
  | close
  | ping
  | pong
  deriving DecidableEq

namespace FrameType

def code : FrameType → ℕ
  | continuation => 0
  | text => 1
  | binary => 2
  | close => 8
  | ping => 9
  | pong => 10

def isControl : FrameType → Bool
  | continuation | text | binary => false
  | close | ping | pong => true

end FrameType

/-- A frame.  Control frames are short and not fragmented. -/
structure Frame where
  fin : Bool
  type : FrameType
  key : Option (List UInt8)
  payload : List UInt8
  key_length : ∀ k ∈ key, k.length = 4
  control : type.isControl = true → fin = true ∧ payload.length ≤ 125
  length_lt : payload.length < 2 ^ 63

/-- A number in that many bytes, the highest first. -/
def bigEndian : ℕ → ℕ → List UInt8
  | 0, _ => []
  | k + 1, n => .ofNat (n / 256 ^ k) :: bigEndian k (n % 256 ^ k)

namespace Frame

def maskBit (f : Frame) : ℕ := if f.key.isSome then 128 else 0

def lengthBytes (f : Frame) : List UInt8 :=
  if f.payload.length < 126 then [.ofNat (f.maskBit + f.payload.length)]
  else if f.payload.length < 65536 then .ofNat (f.maskBit + 126) :: bigEndian 2 f.payload.length
  else .ofNat (f.maskBit + 127) :: bigEndian 8 f.payload.length

/-- The payload from its byte `i` on, masked if there is a key. -/
def payloadFrom (f : Frame) (i : ℕ) : List UInt8 :=
  match f.key with
  | none => f.payload.drop i
  | some key => maskFrom key i (f.payload.drop i)

def bytes (f : Frame) : List UInt8 :=
  .ofNat ((if f.fin then 128 else 0) + f.type.code) ::
    (f.lengthBytes ++ (f.key.getD [] ++ f.payloadFrom 0))

end Frame

/-- A message, or the part of it that has come. -/
structure Message where
  text : Bool
  payload : List UInt8

/-- A data frame starts a message or goes on with one. -/
inductive Extends : Option Message → Frame → Message → Prop
  | text {f : Frame} (h : f.type = .text) : Extends none f ⟨true, f.payload⟩
  | binary {f : Frame} (h : f.type = .binary) : Extends none f ⟨false, f.payload⟩
  | continuation {f : Frame} {m : Message} (h : f.type = .continuation) :
    Extends (some m) f ⟨m.text, m.payload ++ f.payload⟩

variable (decode : List UInt8 → Option DartString)

def Message.event (m : Message) : Option Event :=
  if m.text then (decode m.payload).map .text else some (.binary m.payload)

def carried (payload : List UInt8) : Option (List UInt8) :=
  if payload = [] then none else some payload

def closeEvent : List UInt8 → Option Event
  | [] => some (.close NO_STATUS_RECEIVED [])
  | [_] => none
  | first :: second :: rest =>
    if first.toNat * 256 + second.toNat = NO_STATUS_RECEIVED then none
    else if rest = [] then some (.close (first.toNat * 256 + second.toNat) [])
    else (decode rest).map (.close (first.toNat * 256 + second.toNat))

/-- **A valid sequence of frames and its events**, given the message that is not complete.  Frames are
masked if they come from the client. -/
inductive Sequence (serverSide : Bool) : Option Message → List Frame → List Event → Prop
  | nil {current : Option Message} : Sequence serverSide current [] []
  | fragment {current : Option Message} {f : Frame} {frames : List Frame} {events : List Event}
    {m : Message} (hkey : f.key.isSome = serverSide) (hdata : Extends current f m)
    (hfin : f.fin = false) (hrest : Sequence serverSide (some m) frames events) :
    Sequence serverSide current (f :: frames) events
  | message {current : Option Message} {f : Frame} {frames : List Frame} {events : List Event}
    {m : Message} {event : Event} (hkey : f.key.isSome = serverSide) (hdata : Extends current f m)
    (hfin : f.fin = true) (hevent : m.event decode = some event)
    (hrest : Sequence serverSide none frames events) :
    Sequence serverSide current (f :: frames) (event :: events)
  | ping {current : Option Message} {f : Frame} {frames : List Frame} {events : List Event}
    (hkey : f.key.isSome = serverSide) (htype : f.type = .ping)
    (hrest : Sequence serverSide current frames events) :
    Sequence serverSide current (f :: frames) (.ping (carried f.payload) :: events)
  | pong {current : Option Message} {f : Frame} {frames : List Frame} {events : List Event}
    (hkey : f.key.isSome = serverSide) (htype : f.type = .pong)
    (hrest : Sequence serverSide current frames events) :
    Sequence serverSide current (f :: frames) (.pong (carried f.payload) :: events)
  | close {current : Option Message} {f : Frame} {event : Event} (hkey : f.key.isSome = serverSide)
    (htype : f.type = .close) (hevent : closeEvent decode f.payload = some event) :
    Sequence serverSide current [f] [event]

/-- No control frame with a payload comes while a message has bytes. -/
def Separate : List UInt8 → List Frame → Prop
  | _, [] => True
  | pending, f :: frames =>
    if f.type.isControl then (pending = [] ∨ f.payload = []) ∧ Separate pending frames
    else Separate (if f.fin then [] else pending ++ f.payload) frames

/-- The bytes of a list that is not a view into a larger buffer. -/
structure Uint8List.Whole (list : Uint8List) : Prop where
  offset : list.offsetInBytes = 0
  length_le : list.length ≤ list.buffer.length
  length_pos : 0 < list.length

def Uint8List.bytes (list : Uint8List) : List UInt8 :=
  (list.buffer.drop list.offsetInBytes).take list.length

end Frames

open FrameType

open DartSdk.Io.WebSocket.Frame

section Invariant

def pendingOf (current : Option Message) : List UInt8 := (current.map Message.payload).getD []

def typeOf : Option Message → MessageType
  | none => .none
  | some m => if m.text then .text else .binary

/-- The message type once the first byte of the frame is there. -/
def typeIn (current : Option Message) (f : Frame) : MessageType :=
  match f.type with
  | .text => .text
  | .binary => .binary
  | _ => typeOf current

structure Between (serverSide : Bool) (current : Option Message) (s : Transformer) : Prop where
  state : s.state = .start
  serverSide : s.serverSide = serverSide
  type : s.currentMessageType = typeOf current
  payload : s.payload = pendingOf current
  keyBytes : s.remainingMaskingKeyBytes = 4
  key : s.maskingBytes.length = 4
  index : s.unmaskingIndex = 0
  code : s.closeCode = NO_STATUS_RECEIVED
  reason : s.closeReason = []

structure Inside (current : Option Message) (f : Frame) (s : Transformer) : Prop where
  running : s.state ≠ .closed ∧ s.state ≠ .failure
  serverSide : s.serverSide = f.key.isSome
  fin : s.fin = f.fin
  opcode : s.opcode = f.type.code
  type : s.currentMessageType = typeIn current f
  key : s.maskingBytes.length = 4
  code : s.closeCode = NO_STATUS_RECEIVED
  reason : s.closeReason = []

structure Header (current : Option Message) (f : Frame) (s : Transformer) : Prop
    extends Inside current f s where
  payload : s.payload = pendingOf current
  index : s.unmaskingIndex = 0

/-- In a frame, after that many bytes of its payload. -/
structure Taking (current : Option Message) (f : Frame) (i : ℕ) (s : Transformer) : Prop
    extends Inside current f s where
  state : s.state = .payload
  remaining : s.remainingPayloadBytes = (f.payload.length - i : ℕ)
  masked : s.masked = f.key.isSome
  mask : ∀ key ∈ f.key, s.maskingBytes = key ∧ s.unmaskingIndex % 4 = i % 4
  payload : s.payload = pendingOf current ++ f.payload.take i

/-- In the length, of which `k + 1` bytes that say `n` are still to come. -/
structure InLength (current : Option Message) (f : Frame) (k n : ℕ) (s : Transformer) : Prop
    extends Header current f s where
  state : s.state = .lenRest
  keyBytes : s.remainingMaskingKeyBytes = 4
  masked : s.masked = f.key.isSome
  remaining : s.remainingLenBytes = (k + 1 : ℕ)
  lt : n < 256 ^ (k + 1)
  len : s.len * (256 ^ (k + 1) : ℕ) + n = f.payload.length

/-- In the masking key, of which `i` bytes are there. -/
structure InKey (current : Option Message) (f : Frame) (mask : List UInt8) (i : ℕ) (s : Transformer) :
    Prop extends Header current f s where
  state : s.state = .mask
  eq : f.key = some mask
  lt : i < 4
  keyBytes : s.remainingMaskingKeyBytes = 4 - i
  masked : s.masked = f.key.isSome
  len : s.len = f.payload.length
  bytes : s.maskingBytes.take i = mask.take i

/-- Where the transformer is in a frame, with the bytes of the frame that are still to come. -/
inductive At (current : Option Message) (f : Frame) (s : Transformer) : List UInt8 → Prop
  | start (h : Between f.key.isSome current s) : At current f s f.bytes
  | lenFirst (h : Header current f s) (hstate : s.state = .lenFirst)
    (hkey : s.remainingMaskingKeyBytes = 4) :
    At current f s (f.lengthBytes ++ (f.key.getD [] ++ f.payloadFrom 0))
  | lenRest (k n : ℕ) (h : InLength current f k n s) :
    At current f s (bigEndian (k + 1) n ++ (f.key.getD [] ++ f.payloadFrom 0))
  | mask (key : List UInt8) (i : ℕ) (h : InKey current f key i s) :
    At current f s (key.drop i ++ f.payloadFrom 0)
  | payload (i : ℕ) (h : Taking current f i s) (hi : i < f.payload.length) :
    At current f s (f.payloadFrom i)

variable (decode : List UInt8 → Option DartString)

/-- The frame that is being read and the frames that follow are as expected. -/
structure Ahead (current : Option Message) (f : Frame) (frames : List Frame) (events : List Event) :
    Prop where
  sequence : Sequence decode f.key.isSome current (f :: frames) events
  separate : Separate (pendingOf current) (f :: frames)

/-- With these bytes still to come, the transformer has these events still to report. -/
inductive Pending (s : Transformer) : List UInt8 → List Event → Prop
  | closed (hstate : s.state = .closed) : Pending s [] []
  | between {serverSide : Bool} {current : Option Message} (h : Between serverSide current s) :
    Pending s [] []
  | inside {current : Option Message} {f : Frame} {frames : List Frame} {rest : List UInt8}
    {events : List Event} (hat : At current f s rest) (ha : Ahead decode current f frames events) :
    Pending s (rest ++ frames.flatMap Frame.bytes) events

/-- A step reports what is next. -/
def Goes (result : Except Error (Transformer × List Event)) (bytes : List UInt8)
    (events : List Event) : Prop :=
  ∃ s events₁ events₂, result = .ok (s, events₁) ∧ events = events₁ ++ events₂ ∧
    Pending decode s bytes events₂

end Invariant

variable {decode : List UInt8 → Option DartString} {current : Option Message} {s : Transformer}
  {f : Frame} {frames : List Frame} {events : List Event}

section FrameEnds

variable {serverSide : Bool} {m : Message}

theorem Extends.isControl (h : Extends current f m) : f.type.isControl = false := by
  cases h with
  | text h | binary h | _ h => rw [h]; rfl

theorem Extends.typeIn (h : Extends current f m) : typeIn current f = typeOf (some m) := by
  cases h with
  | text h | binary h | _ h => rw [typeIn, h]; rfl

theorem Extends.payload (h : Extends current f m) : pendingOf current ++ f.payload = m.payload := by
  cases h <;> rfl

theorem typeIn_control (h : f.type.isControl) : typeIn current f = typeOf current := by
  rw [typeIn]
  cases ht : f.type <;> simp_all [isControl]

theorem pending_of_between (h : Between serverSide current s)
    (hs : Sequence decode serverSide current frames events)
    (hsp : Separate (pendingOf current) frames) :
    Pending decode s (frames.flatMap Frame.bytes) events := by
  cases frames with
  | nil =>
    cases hs
    exact .between h
  | cons f frames =>
    have hk : f.key.isSome = serverSide := by cases hs <;> assumption
    subst hk
    exact .inside (.start h) ⟨hs, hsp⟩

theorem Inside.between (h : Inside current f s) {next : Option Message} {payload : List UInt8}
    {type : MessageType} (ht : type = typeOf next) (hpy : payload = pendingOf next) :
    Between f.key.isSome next
      (prepareForNextFrame { s with payload := payload, currentMessageType := type }) where
  state := if_pos h.running
  serverSide := h.serverSide
  type := ht
  payload := hpy
  keyBytes := rfl
  key := h.key
  index := rfl
  code := h.code
  reason := h.reason

theorem messageFrameEnd_event {event : Event} (hf : s.fin)
    (hty : s.currentMessageType = typeOf (some m)) (hpy : s.payload = m.payload)
    (he : m.event decode = some event) :
    messageFrameEnd decode s =
      .ok (prepareForNextFrame { s with payload := [], currentMessageType := .none }, [event]) := by
  rw [messageFrameEnd, if_pos hf, hty, hpy]
  rw [Message.event] at he
  cases ht : m.text with
  | true =>
    rw [if_pos ht] at he
    obtain ⟨_, hm, rfl⟩ := map_eq_some_iff.mp he
    simp only [typeOf, ht, hm]
    rfl
  | false =>
    rw [if_neg (by simp [ht])] at he
    cases he
    simp only [typeOf, ht]
    rfl

theorem closeStatus_event {event : Event} (hpy : s.payload ≠ []) (hr : s.closeReason = [])
    (he : closeEvent decode s.payload = some event) :
    ∃ s', closeStatus decode s = .ok s' ∧ event = .close s'.closeCode s'.closeReason := by
  rcases hb : s.payload with _ | ⟨_, _ | ⟨_, _⟩⟩
  · exact absurd hb hpy
  · rw [hb] at he
    cases he
  rw [hb, closeEvent] at he
  simp only [closeStatus, hb]
  split_ifs at he ⊢ with hc hrs
  · cases he
    exact ⟨_, rfl, by rw [hr]⟩
  · obtain ⟨_, hd, rfl⟩ := map_eq_some_iff.mp he
    rw [hd]
    exact ⟨_, rfl, rfl⟩

theorem Inside.isControlFrame (h : Inside current f s) : isControlFrame s = f.type.isControl := by
  rw [WebSocket.isControlFrame, h.opcode]
  cases f.type <;> rfl

theorem payloadFrom_length (f : Frame) (i : ℕ) : (f.payloadFrom i).length = f.payload.length - i := by
  rw [payloadFrom]
  cases f.key <;> simp

variable (ha : Ahead decode current f frames events)

include ha

theorem goes_inside {rest : List UInt8} (hat : At current f s rest) :
    Goes decode (.ok (s, [])) (rest ++ frames.flatMap Frame.bytes) events :=
  ⟨_, [], _, rfl, rfl, .inside hat ha⟩

theorem messageFrameEnd_goes (h : Inside current f s)
    (hpy : s.payload = pendingOf current ++ f.payload) (hd : f.type.isControl = false) :
    Goes decode (messageFrameEnd decode s) (frames.flatMap Frame.bytes) events := by
  obtain ⟨hsq, hs⟩ := ha
  rw [Separate, if_neg (by simp [hd])] at hs
  cases hsq with
  | fragment _ he hf hr =>
    rw [if_neg (by simp [hf]), he.payload] at hs
    have hn : Between f.key.isSome (some _) (prepareForNextFrame s) :=
      h.between (h.type.trans he.typeIn) (hpy.trans he.payload)
    exact ⟨_, [], events, if_neg (by simp [h.fin, hf]), rfl,
      pending_of_between hn hr hs⟩
  | message _ he hf hev hr =>
    rw [if_pos hf] at hs
    have hn : Between f.key.isSome none
        (prepareForNextFrame { s with payload := [], currentMessageType := .none }) :=
      h.between rfl rfl
    have ht := h.type.trans he.typeIn
    rw [he.payload] at hpy
    exact ⟨_, [_], _, messageFrameEnd_event (h.fin.trans hf) ht hpy hev, rfl,
      pending_of_between hn hr hs⟩
  | ping _ ht | pong _ ht | close _ ht => simp [ht, isControl] at hd

theorem emptyControlFrame_goes (h : Inside current f s) (hpy : s.payload = pendingOf current)
    (hc : f.type.isControl) (hem : f.payload = []) :
    Goes decode (.ok (emptyControlFrame s)) (frames.flatMap Frame.bytes) events := by
  obtain ⟨hsq, hs⟩ := ha
  rw [Separate, if_pos hc] at hs
  have hn : Between f.key.isSome current (prepareForNextFrame s) :=
    h.between (h.type.trans (typeIn_control hc)) hpy
  rw [emptyControlFrame, h.opcode]
  cases hsq with
  | fragment _ he | message _ he =>
    exact absurd (hc.symm.trans he.isControl) (by simp)
  | ping _ ht hr | pong _ ht hr =>
    rw [ht, hem]
    exact ⟨_, _, _, rfl, rfl, pending_of_between hn hr hs.2⟩
  | close _ ht hev =>
    rw [hem] at hev
    cases hev
    rw [ht, h.code, h.reason]
    exact ⟨_, _, _, rfl, rfl, .closed rfl⟩

/-- **A control frame with a payload** ends; the payload is its own if the message has no bytes. -/
theorem controlFrameEnd_goes (h : Inside current f s)
    (hpy : s.payload = pendingOf current ++ f.payload) (hc : f.type.isControl)
    (hne : f.payload ≠ []) :
    Goes decode (controlFrameEnd decode s) (frames.flatMap Frame.bytes) events := by
  obtain ⟨hsq, hs⟩ := ha
  rw [Separate, if_pos hc] at hs
  have hn : pendingOf current = [] := hs.1.resolve_right hne
  rw [hn, nil_append] at hpy
  have hcr : carried f.payload = some f.payload := if_neg hne
  have hnx : Between f.key.isSome current (prepareForNextFrame { s with payload := [] }) :=
    h.between (h.type.trans (typeIn_control hc)) hn.symm
  rw [controlFrameEnd, h.opcode]
  cases hsq with
  | fragment _ he | message _ he =>
    exact absurd (hc.symm.trans he.isControl) (by simp)
  | ping _ ht hr | pong _ ht hr =>
    rw [ht, hcr, hpy]
    exact ⟨_, _, _, rfl, rfl, pending_of_between hnx hr hs.2⟩
  | close _ ht hev =>
    rw [← hpy] at hne hev
    obtain ⟨_, hst, rfl⟩ := closeStatus_event hne h.reason hev
    have hcl : ((close.code : ℕ) : ℤ) = Opcode.CLOSE := rfl
    rw [ht, if_pos hcl, hst]
    exact ⟨_, _, _, rfl, rfl, .closed rfl⟩

theorem startPayload_goes (h : Header current f s) (hm : s.masked = f.key.isSome)
    (hk : ∀ key ∈ f.key, s.maskingBytes = key)
    (hr : s.remainingPayloadBytes = f.payload.length) :
    Goes decode (startPayload decode s) (f.payloadFrom 0 ++ frames.flatMap Frame.bytes) events := by
  by_cases hempty : f.payload = []
  · have hf : f.payloadFrom 0 = [] := by
      rw [← length_eq_zero_iff, payloadFrom_length, hempty]
      rfl
    have hz : s.remainingPayloadBytes = 0 := by
      rw [hr, hempty]
      rfl
    rw [startPayload, if_pos hz, h.isControlFrame, hf, nil_append]
    cases hc : f.type.isControl with
    | true => exact emptyControlFrame_goes ha h.toInside h.payload hc hempty
    | false =>
      exact messageFrameEnd_goes ha h.toInside (by rw [h.payload, hempty, append_nil]) hc
  · have hps : 0 < f.payload.length := length_pos_iff.mpr hempty
    have hn : s.remainingPayloadBytes ≠ 0 := by omega
    rw [startPayload, if_neg hn]
    have ht : Taking current f 0 { s with state := .payload } :=
      { h with
        running := by simp
        state := rfl
        remaining := hr
        masked := hm
        mask := fun key hmm => ⟨hk key hmm, by rw [h.index]⟩
        payload := h.payload.trans (by simp) }
    exact goes_inside ha (.payload 0 ht hps)

theorem lengthDone_goes (h : Header current f s) (hm : s.masked = f.key.isSome)
    (hk : s.remainingMaskingKeyBytes = 4) (hl : s.len = f.payload.length) :
    Goes decode (lengthDone decode s)
      (f.key.getD [] ++ f.payloadFrom 0 ++ frames.flatMap Frame.bytes) events := by
  cases hf : f.key with
  | none =>
    have hd : lengthDone decode s = startPayload decode { s with remainingPayloadBytes := s.len } :=
      (if_neg (by simp [hm, hf])).trans (if_neg (by simp [h.serverSide, hf]))
    have hn : ∀ key ∈ f.key, s.maskingBytes = key := by simp [hf]
    rw [hd]
    exact startPayload_goes ha { h with } hm hn hl
  | some key =>
    have hd : lengthDone decode s = .ok ({ s with state := .mask }, []) :=
      (if_pos (by simp [hm, hf])).trans (if_neg (by simp [h.serverSide, hf]))
    have hin : InKey current f key 0 { s with state := .mask } :=
      ⟨{ h with running := by simp }, rfl, hf, by omega, hk, hm, hl, rfl⟩
    rw [hd]
    exact goes_inside ha (.mask key 0 hin)

end FrameEnds

section Headers

theorem first_byte (fin : Bool) (type : FrameType) :
    UInt8.ofNat ((if fin then 128 else 0) + type.code) &&& 0x70 = 0 ∧
      (decide (UInt8.ofNat ((if fin then 128 else 0) + type.code) &&& 0x80 ≠ 0) = fin) ∧
      (UInt8.ofNat ((if fin then 128 else 0) + type.code) &&& 0xF).toNat = type.code := by
  cases fin <;> cases type <;> decide

theorem parseStart_eq (ht : s.currentMessageType = typeOf current)
    (hs : Sequence decode f.key.isSome current (f :: frames) events) :
    parseStart s (.ofNat ((if f.fin then 128 else 0) + f.type.code)) =
      .ok { s with
        fin := f.fin
        opcode := f.type.code
        currentMessageType := typeIn current f
        state := .lenFirst } := by
  obtain ⟨hr, hfn, ho⟩ := first_byte f.fin f.type
  rw [parseStart, if_neg (not_not.mpr hr)]
  simp only [hfn, ho]
  have hf : (∃ m, Extends current f m) ∨ f.type.isControl := by
    cases hs with
    | fragment _ he | message _ he => exact .inl ⟨_, he⟩
    | ping _ ht | pong _ ht | close _ ht => exact .inr (by rw [ht]; rfl)
  rcases hf with ⟨m, he⟩ | hc
  · cases he with
    | text h => simp [h, ht, code, Opcode.BINARY, Opcode.CONTINUATION, Opcode.TEXT, typeOf,
        typeIn]
    | binary h => simp [h, ht, code, Opcode.BINARY, Opcode.CONTINUATION, Opcode.TEXT,
        typeOf, typeIn]
    | @continuation _ m h =>
      have hne : typeOf (some m) ≠ .none := by
        rw [typeOf]
        split_ifs <;> simp
      simp [h, ht, code, Opcode.BINARY, Opcode.CONTINUATION, typeIn, hne]
  · have hw := (f.control hc).1
    rw [typeIn_control hc, ← ht]
    cases hf : f.type with
    | continuation | text | binary =>
      rw [hf] at hc
      cases hc
    | close | ping | pong =>
      simp [code, Opcode.BINARY, Opcode.CLOSE, Opcode.PONG, hw]

theorem parseLenFirst_eq (h : Inside current f s) {n : ℕ} (hn : n < 128)
    (hc : f.type.isControl → n ≤ 125) :
    parseLenFirst decode s (.ofNat (f.maskBit + n)) =
      if n = 126 then
        .ok ({ s with masked := f.key.isSome, len := 0, remainingLenBytes := 2, state := .lenRest }, [])
      else if n = 127 then
        .ok ({ s with masked := f.key.isSome, len := 0, remainingLenBytes := 8, state := .lenRest }, [])
      else lengthDone decode { s with masked := f.key.isSome, len := n } := by
  have hb : ∀ (masked : Bool) (n : Fin 128),
      (decide (UInt8.ofNat ((if masked then 128 else 0) + n.val) &&& 0x80 ≠ 0) = masked) ∧
        (UInt8.ofNat ((if masked then 128 else 0) + n.val) &&& 0x7F).toNat = n.val := by
    decide
  obtain ⟨hm, hl⟩ := hb f.key.isSome ⟨n, hn⟩
  have hf : isControlFrame { s with masked := f.key.isSome, len := n } = f.type.isControl :=
    Inside.isControlFrame { h with }
  have hs : ¬(isControlFrame { s with masked := f.key.isSome, len := n } = true ∧
      125 < (n : ℤ)) := by
    rintro ⟨ht, hlong⟩
    have := hc (hf.symm.trans ht)
    omega
  unfold parseLenFirst
  rw [maskBit, hm, hl]
  dsimp only
  rw [if_neg hs]
  by_cases h126 : n = 126
  · rw [if_pos h126, if_pos (by omega)]
  · rw [if_neg h126, if_neg (by omega)]
    by_cases h127 : n = 127
    · rw [if_pos h127, if_pos (by omega)]
    · rw [if_neg h127, if_neg (by omega)]

variable (ha : Ahead decode current f frames events)

include ha

theorem parseStart_goes (h : Between f.key.isSome current s) :
    Goes decode ((parseStart s (.ofNat ((if f.fin then 128 else 0) + f.type.code))).map
        fun s => (s, []))
      (f.lengthBytes ++ (f.key.getD [] ++ f.payloadFrom 0) ++ frames.flatMap Frame.bytes) events := by
  rw [parseStart_eq h.type ha.sequence]
  refine goes_inside ha (.lenFirst ⟨⟨by simp, h.serverSide, rfl, rfl, rfl, h.key, h.code,
    h.reason⟩, h.payload, h.index⟩ rfl h.keyBytes)

theorem parseLenFirst_goes (h : Header current f s) (hk : s.remainingMaskingKeyBytes = 4)
    {byte : UInt8} {rest : List UInt8}
    (hb : f.lengthBytes ++ (f.key.getD [] ++ f.payloadFrom 0) = byte :: rest) :
    Goes decode (parseLenFirst decode s byte) (rest ++ frames.flatMap Frame.bytes) events := by
  have hl (h : ¬f.payload.length < 126) {n : ℕ} (hc : f.type.isControl) : n ≤ 125 :=
    absurd (Nat.lt_succ_of_le (f.control hc).2) h
  have hh (remaining : ℤ) : Header current f { s with
      masked := f.key.isSome, len := 0, remainingLenBytes := remaining, state := .lenRest } :=
    { h with running := by simp }
  have hln := f.length_lt
  rw [lengthBytes] at hb
  split_ifs at hb with hs hm <;> obtain ⟨rfl, rfl⟩ := cons_eq_cons.mp hb
  · rw [parseLenFirst_eq h.toInside (by omega) (fun _ => by omega), if_neg (by omega),
      if_neg (by omega)]
    exact lengthDone_goes ha { h with } rfl hk rfl
  · rw [parseLenFirst_eq h.toInside (by omega) (hl hs), if_pos rfl]
    exact goes_inside ha (.lenRest 1 f.payload.length
      ⟨hh 2, rfl, hk, rfl, rfl, by omega, by simp⟩)
  · rw [parseLenFirst_eq h.toInside (by omega) (hl hs), if_neg (by omega), if_pos rfl]
    exact goes_inside ha (.lenRest 7 f.payload.length
      ⟨hh 8, rfl, hk, rfl, rfl, by omega, by simp⟩)

theorem parseLenRest_goes {k n : ℕ} (h : InLength current f k n s) :
    Goes decode (parseLenRest decode s (.ofNat (n / 256 ^ k)))
      (bigEndian k (n % 256 ^ k) ++ (f.key.getD [] ++ f.payloadFrom 0) ++
        frames.flatMap Frame.bytes) events := by
  have hb : (UInt8.ofNat (n / 256 ^ k)).toNat = n / 256 ^ k := by
    rw [UInt8.toNat_ofNat']
    refine Nat.mod_eq_of_lt (Nat.div_lt_of_lt_mul ?_)
    rw [← Nat.pow_succ]
    exact h.lt
  have hl' : (s.len * 256 + (n / 256 ^ k : ℕ)) * (256 ^ k : ℕ) + (n % 256 ^ k : ℕ) =
      f.payload.length := by
    rw [← h.len, Int.add_mul, Int.add_assoc, Int.mul_assoc, ← Int.natCast_mul, ← Int.natCast_add,
      Nat.div_add_mod', Nat.pow_succ, Int.natCast_mul, Int.mul_comm (256 ^ k : ℕ)]
    rfl
  have hpr : parseLenRest decode s (.ofNat (n / 256 ^ k)) =
      if (k : ℤ) = 0 then
        lengthDone decode { s with len := s.len * 256 + (n / 256 ^ k : ℕ), remainingLenBytes := k }
      else .ok ({ s with len := s.len * 256 + (n / 256 ^ k : ℕ), remainingLenBytes := k }, []) := by
    have hs : s.remainingLenBytes - 1 = k := by
      rw [h.remaining]
      omega
    unfold parseLenRest
    rw [hb, hs]
  rw [hpr]
  cases k with
  | zero =>
    rw [if_pos (by simp)]
    have hd : s.len * 256 + (n / 256 ^ 0 : ℕ) = f.payload.length := by
      have : n % 256 ^ 0 = 0 := Nat.mod_one n
      rw [this] at hl'
      simpa using hl'
    exact lengthDone_goes ha { h with } h.masked h.keyBytes hd
  | succ k =>
    rw [if_neg (by omega)]
    have hlt : n % 256 ^ (k + 1) < 256 ^ (k + 1) := Nat.mod_lt _ (Nat.pow_pos (by omega))
    exact goes_inside ha (.lenRest k _ { h with remaining := rfl, lt := hlt, len := hl' })

theorem parseMask_goes {key : List UInt8} {i : ℕ} (h : InKey current f key i s) {byte : UInt8}
    (hb : key.drop i = byte :: key.drop (i + 1)) :
    Goes decode (parseMask decode s byte)
      (key.drop (i + 1) ++ f.payloadFrom 0 ++ frames.flatMap Frame.bytes) events := by
  have hk : key.length = 4 := f.key_length key h.eq
  have hi := h.lt
  have hs : (s.maskingBytes.set i byte).take (i + 1) = key.take (i + 1) := by
    have hat : key[i]? = some byte := by
      have := congrArg List.head? hb
      rwa [head?_drop] at this
    have hlt : i < s.maskingBytes.length := by rw [h.key]; exact hi
    rw [take_add_one, take_add_one, take_set_of_le (Nat.le_refl i), h.bytes, hat,
      getElem?_set_self hlt]
  have hpr : parseMask decode s byte =
      if 3 - i = 0 then
        startPayload decode { s with
          maskingBytes := s.maskingBytes.set i byte
          remainingMaskingKeyBytes := 3 - i
          remainingPayloadBytes := s.len }
      else .ok ({ s with
        maskingBytes := s.maskingBytes.set i byte
        remainingMaskingKeyBytes := 3 - i }, []) := by
    have hin : 4 - (4 - i) = i := by omega
    have hsb : 4 - i - 1 = 3 - i := by omega
    unfold parseMask
    rw [h.keyBytes, hin, hsb]
    rfl
  rw [hpr]
  by_cases hlast : 3 - i = 0
  · obtain rfl : i = 3 := by omega
    have hn : key.drop 4 = [] := drop_of_length_le (by omega)
    have hal : s.maskingBytes.set 3 byte = key := by
      have ht := hs
      rwa [take_of_length_le (by simp [h.key]), take_of_length_le (by omega)] at ht
    rw [if_pos hlast, hn, nil_append]
    refine startPayload_goes ha { h with key := (length_set ..).trans h.key } h.masked
      (fun key' hm => ?_) h.len
    rw [hal, ← some.injEq, ← h.eq]
    exact hm
  · rw [if_neg hlast]
    exact goes_inside ha (.mask key (i + 1) { h with
      key := (length_set ..).trans h.key
      lt := by omega
      keyBytes := by simp
      bytes := hs })

end Headers

section Payloads

theorem payloadFrom_drop (f : Frame) (i n : ℕ) : (f.payloadFrom i).drop n = f.payloadFrom (i + n) := by
  rw [payloadFrom, payloadFrom]
  cases f.key with
  | none => simp
  | some key => simp [maskFrom_drop]

/-- The rest of a list, from `index` on. -/
def Uint8List.restFrom (list : Uint8List) (index : ℕ) : List UInt8 :=
  (list.buffer.take list.length).drop index

/-- A list after a round that has taken `n` bytes: what follows is not touched. -/
structure Uint8List.Kept (list list' : Uint8List) (index : ℕ) : Prop where
  whole : list'.Whole
  length : list'.length = list.length
  rest : list'.buffer.drop index = list.buffer.drop index

theorem Taking.reveal {i : ℕ} (h : Taking current f i s) (n : ℕ) :
    s.reveal ((f.payloadFrom i).take n) = (f.payload.drop i).take n := by
  rw [Transformer.reveal, h.masked, payloadFrom]
  cases hf : f.key with
  | none => rfl
  | some key =>
    obtain ⟨rfl, hu⟩ := h.mask key hf
    rw [maskFrom_take, maskFrom_congr _ hu]
    exact maskFrom_maskFrom ..

variable (ha : Ahead decode current f frames events)

include ha

theorem afterPayload_goes {i : ℕ} (h : Taking current f i s) (hps : 0 < i)
    (hi : i ≤ f.payload.length) :
    Goes decode (afterPayload decode s) (f.payloadFrom i ++ frames.flatMap Frame.bytes) events := by
  have ht : f.type.isControl = false →
      ¬(s.currentMessageType ≠ .text ∧ s.currentMessageType ≠ .binary) := by
    intro hd
    rw [h.type]
    cases ha.sequence with
    | fragment _ he | message _ he =>
      rw [he.typeIn, typeOf]
      split_ifs <;> simp
    | ping _ ht | pong _ ht | close _ ht => simp [ht, isControl] at hd
  have hr := h.remaining
  rw [afterPayload, h.isControlFrame]
  by_cases hlast : i = f.payload.length
  · have hz : s.remainingPayloadBytes = 0 := by omega
    have hf : f.payloadFrom i = [] := by
      rw [← length_eq_zero_iff, payloadFrom_length]
      omega
    have hne : f.payload ≠ [] := by
      rintro hem
      rw [hem] at hlast
      simp at hlast
      omega
    have hpy := h.payload
    rw [hlast, take_length] at hpy
    rw [hf, nil_append]
    cases hc : f.type.isControl with
    | true =>
      rw [if_pos rfl, if_pos hz]
      exact controlFrameEnd_goes ha h.toInside hpy hc hne
    | false =>
      rw [if_neg (by simp), if_neg (ht hc), if_pos hz]
      exact messageFrameEnd_goes ha h.toInside hpy hc
  · have hn : s.remainingPayloadBytes ≠ 0 := by omega
    have hg : Goes decode (.ok (s, [])) (f.payloadFrom i ++ frames.flatMap Frame.bytes) events :=
      goes_inside ha (.payload i h (by omega))
    cases hc : f.type.isControl with
    | true => rwa [if_pos rfl, if_neg hn]
    | false => rwa [if_neg (by simp), if_neg (ht hc), if_neg hn]

theorem parsePayload_goes {i : ℕ} (h : Taking current f i s) (hi : i < f.payload.length)
    {list : Uint8List} {index : ℕ} (hw : list.Whole) (hin : index < list.length)
    {later : List UInt8}
    (hb : list.restFrom index ++ later = f.payloadFrom i ++ frames.flatMap Frame.bytes) :
    ∃ result list' n, parsePayload decode s list index = (result, list', index + n) ∧ 0 < n ∧
      index + n ≤ list.length ∧ list.Kept list' (index + n) ∧
      Goes decode result ((f.payloadFrom i ++ frames.flatMap Frame.bytes).drop n) events := by
  obtain ⟨n, hn⟩ : ∃ n, n = min (list.length - index) s.remainingPayloadBytes.toNat := ⟨_, rfl⟩
  have hrm := h.remaining
  have hl := hw.length_le
  have hle : n ≤ f.payload.length - i := by omega
  have hps : 0 < n := by omega
  have hr : (list.buffer.drop index).take n = (f.payloadFrom i).take n := by
    have ht := congrArg (List.take n) hb
    rw [take_append_of_le_length, take_append_of_le_length] at ht
    · rw [← ht, Uint8List.restFrom, drop_take, take_take]
      congr 1
      omega
    · rw [payloadFrom_length]
      exact hle
    · rw [Uint8List.restFrom, length_drop, length_take]
      omega
  obtain ⟨hd, u, hu, ht⟩ :=
    takePayload_spec hw.offset (by omega) hl hn (hr ▸ h.reveal n)
  have hpr := @parsePayload_eq s list index decode
  rw [ht, ← hn] at hpr
  refine ⟨_, _, n, hpr, hps, by omega, ⟨⟨rfl, ?_, hw.length_pos⟩, rfl, ?_⟩, ?_⟩
  · simp only [length_append, length_take, hd, length_drop]
    omega
  · exact drop_left' (by rw [length_append, length_take, hd]; omega)
  · have htk : Taking current f (i + n) { s with
        remainingPayloadBytes := s.remainingPayloadBytes - n
        unmaskingIndex := u
        payload := s.payload ++ (f.payload.drop i).take n } := by
      refine { h with remaining := ?_, mask := fun key hk => ?_, payload := ?_ }
      · dsimp only
        omega
      · obtain ⟨hb, hi⟩ := h.mask key hk
        have := hu (by rw [h.masked, hk]; rfl)
        exact ⟨hb, by dsimp only; omega⟩
      · rw [h.payload, append_assoc, take_add]
    rw [drop_append_of_le_length (by rw [payloadFrom_length]; exact hle), payloadFrom_drop]
    exact afterPayload_goes ha htk (by omega) (by omega)

end Payloads

section Runs

variable {bytes later : List UInt8} {list : Uint8List} {index : ℕ}

theorem restFrom_eq (hw : list.Whole) (hi : index < list.length) :
    list.restFrom index = list.get index :: list.restFrom (index + 1) := by
  have hlt' : index < list.buffer.length := Nat.lt_of_lt_of_le hi hw.length_le
  have hlt : index < (list.buffer.take list.length).length := by
    rw [length_take]
    omega
  rw [Uint8List.restFrom, Uint8List.restFrom, drop_eq_getElem_cons hlt, getElem_take,
    Uint8List.get, hw.offset, Nat.zero_add, getD_eq_getElem?_getD,
    getElem?_eq_getElem hlt']
  rfl

theorem Uint8List.Kept.restFrom {list' : Uint8List} (h : list.Kept list' index) :
    list'.restFrom index = list.restFrom index := by
  rw [Uint8List.restFrom, Uint8List.restFrom, drop_take, drop_take, h.rest, h.length]

theorem restFrom_length_eq (hw : list.Whole) :
    (list.restFrom index).length = list.length - index := by
  rw [Uint8List.restFrom, length_drop, length_take, Nat.min_eq_left hw.length_le]

theorem restFrom_eq_nil (h : list.length ≤ index) : list.restFrom index = [] :=
  drop_eq_nil_of_le (Nat.le_trans (length_take_le ..) h)

theorem At.ne_nil {current : Option Message} {f : Frame} {rest : List UInt8}
    (h : At current f s rest) : rest ≠ [] := by
  cases h with
  | start => exact cons_ne_nil _ _
  | lenFirst =>
    rw [lengthBytes]
    split_ifs <;> simp
  | lenRest => exact cons_ne_nil _ _
  | mask key i h =>
    have hk := f.key_length key h.eq
    have hi := h.lt
    intro hn
    have := congrArg List.length hn
    simp only [length_append, length_drop, length_nil] at this
    omega
  | payload i _ hi =>
    rw [← length_pos_iff, payloadFrom_length]
    omega

variable (hp : Pending decode s bytes events)

include hp

/-- **A round reports what is next.** -/
theorem Pending.round (hw : list.Whole) (hin : index < list.length)
    (hb : list.restFrom index ++ later = bytes) :
    ∃ result list' n, round decode s list index = (result, list', index + n) ∧ 0 < n ∧
      index + n ≤ list.length ∧ list.Kept list' (index + n) ∧
      Goes decode result (bytes.drop n) events := by
  have hc := restFrom_eq hw hin
  have ho : index + 1 ≤ list.length := hin
  have hk : list.Kept list (index + 1) := ⟨hw, rfl, rfl⟩
  have hby {byte : UInt8} {rest : List UInt8} (h : list.restFrom index ++ later = byte :: rest) :
      list.get index = byte := by
    rw [hc] at h
    exact (cons_eq_cons.mp h).1
  cases hp with
  | closed | between =>
    rw [hc] at hb
    cases hb
  | @inside _ f _ _ _ hat ha =>
    cases hat with
    | start h =>
      refine ⟨_, list, 1, ?_, Nat.one_pos, ho, hk, parseStart_goes ha h⟩
      rw [round, h.state, hby hb]
    | lenFirst h hl hky =>
      obtain ⟨byte, rest, hrest⟩ :
          ∃ byte rest, f.lengthBytes ++ (f.key.getD [] ++ f.payloadFrom 0) = byte :: rest := by
        rw [lengthBytes]
        split_ifs <;> exact ⟨_, _, rfl⟩
      rw [hrest] at hb ⊢
      refine ⟨_, list, 1, ?_, Nat.one_pos, ho, hk, parseLenFirst_goes ha h hky hrest⟩
      rw [round, hl, hby hb]
    | lenRest k n h =>
      refine ⟨_, list, 1, ?_, Nat.one_pos, ho, hk, parseLenRest_goes ha h⟩
      rw [round, h.state, hby hb]
    | mask key i h =>
      have hlt : i < key.length := by
        rw [f.key_length key h.eq]
        exact h.lt
      have hd := drop_eq_getElem_cons hlt
      rw [hd] at hb ⊢
      refine ⟨_, list, 1, ?_, Nat.one_pos, ho, hk, parseMask_goes ha h hd⟩
      rw [round, h.state, hby hb]
    | payload i h hi =>
      rw [round, h.state]
      exact parsePayload_goes ha h hi hw hin hb

theorem Pending.running (hne : bytes ≠ []) : s.state ≠ .closed ∧ s.state ≠ .failure := by
  cases hp with
  | closed | between => exact absurd rfl hne
  | inside hat =>
    cases hat with
    | start h => simp [h.state]
    | lenFirst h | lenRest _ _ h | mask _ _ h | payload _ h => exact h.running

/-- **A buffer is taken to its end**, and the events that are left come with the next ones. -/
theorem Pending.loop (hw : list.Whole) (hi : index ≤ list.length) {fuel : ℕ}
    (hf : list.length - index ≤ fuel) (hb : list.restFrom index ++ later = bytes) :
    ∃ s' events₁ events₂, loop decode fuel s list index = (s', events₁) ∧
      events = events₁ ++ events₂ ∧ Pending decode s' later events₂ := by
  induction fuel generalizing s list index bytes events with
  | zero =>
    rw [restFrom_eq_nil (by omega), nil_append] at hb
    exact ⟨s, [], events, rfl, rfl, hb ▸ hp⟩
  | succ fuel ih =>
    by_cases hlt : index < list.length
    · have hne : bytes ≠ [] := by
        rw [← hb, restFrom_eq hw hlt]
        exact cons_ne_nil _ _
      obtain ⟨_, list', n, hrn, hps, hle, hk, s', events₁, events₂, hr, rfl, hp'⟩ :=
        hp.round hw hlt hb
      have hb' : list'.restFrom (index + n) ++ later = bytes.drop n := by
        have hn : n ≤ (list.restFrom index).length := by
          rw [restFrom_length_eq hw]
          omega
        rw [hk.restFrom, ← hb, drop_append_of_le_length hn, Uint8List.restFrom,
          Uint8List.restFrom, drop_drop]
      obtain ⟨s'', events₃, events₄, hl, rfl, hp''⟩ := ih hp' hk.whole
        (by rw [hk.length]; exact hle) (by rw [hk.length]; omega) hb'
      refine ⟨s'', events₁ ++ events₃, events₄, ?_, by rw [append_assoc], hp''⟩
      rw [loop, if_pos ⟨hlt, hp.running hne⟩, hrn, hr]
      dsimp only
      rw [hl]
    · rw [restFrom_eq_nil (by omega), nil_append] at hb
      refine ⟨s, [], events, ?_, rfl, hb ▸ hp⟩
      rw [loop, if_neg (by tauto)]

theorem Pending.add (hw : list.Whole) (hb : list.bytes ++ later = bytes) :
    ∃ s' events₁ events₂, WebSocket.add decode s list = (s', events₁) ∧
      events = events₁ ++ events₂ ∧ Pending decode s' later events₂ := by
  have hr : list.bytes = list.restFrom 0 := by
    rw [Uint8List.bytes, hw.offset]
    rfl
  rw [hr] at hb
  have hne : bytes ≠ [] := by
    rw [← hb, restFrom_eq hw hw.length_pos]
    exact cons_ne_nil _ _
  rw [WebSocket.add, if_neg (hp.running hne).1, if_neg (hp.running hne).2]
  exact hp.loop hw (Nat.zero_le _) (by omega) hb

theorem Pending.addAll {lists : List Uint8List} (hw : ∀ list ∈ lists, list.Whole)
    (hb : lists.flatMap Uint8List.bytes = bytes) :
    ∃ s' events₂, events = (addAll decode s lists).2 ++ events₂ ∧
      Pending decode s' [] events₂ := by
  induction lists generalizing s bytes events with
  | nil =>
    subst hb
    exact ⟨s, events, rfl, hp⟩
  | cons list lists ih =>
    obtain ⟨s', _, events₂, had, rfl, hp'⟩ :=
      hp.add (hw list (mem_cons_self ..)) (by rw [← hb, flatMap_cons])
    obtain ⟨s'', events₃, rfl, hp''⟩ :=
      ih hp' (fun list h => hw list (mem_cons_of_mem _ h)) rfl
    refine ⟨s'', events₃, ?_, hp''⟩
    rw [addAll, had, append_assoc]

theorem Pending.events_eq_nil (hn : bytes = []) : events = [] := by
  cases hp with
  | closed | between => rfl
  | inside hat => exact absurd (append_eq_nil_iff.mp hn).1 hat.ne_nil

omit hp

/-- **The events are those of the frames**, in whatever buffers their bytes come. -/
theorem reassembly {serverSide : Bool} (frames : List Frame) {lists : List Uint8List}
    (hsequence : Sequence decode serverSide none frames events) (hseparate : Separate [] frames)
    (hwhole : ∀ list ∈ lists, list.Whole)
    (hbytes : lists.flatMap Uint8List.bytes = frames.flatMap Frame.bytes) :
    (addAll decode (new serverSide) lists).2 = events := by
  have hp : Pending decode (new serverSide) (frames.flatMap Frame.bytes) events :=
    pending_of_between ⟨rfl, rfl, rfl, rfl, rfl, rfl, rfl, rfl, rfl⟩ hsequence hseparate
  obtain ⟨_, _, rfl, hp'⟩ := hp.addAll hwhole hbytes
  rw [hp'.events_eq_nil rfl, append_nil]

def decodeAscii (bytes : List UInt8) : Option DartString :=
  if bytes.all (· < 128) then some (bytes.map UInt8.toUInt16) else none

def fragment (fin : Bool) (type : FrameType) (byte : UInt8)
    (hcontrol : type.isControl = true → fin = true) : Frame :=
  ⟨fin, type, none, [byte], by simp, fun h => ⟨hcontrol h, by simp⟩, by simp⟩

theorem reassembly_fragments :
    (addAll decodeAscii (new false)
      [⟨[0x01, 0x01, 0x41, 0x80], 0, 4⟩, ⟨[0x01, 0x42], 0, 2⟩]).2 = [.text [0x41, 0x42]] :=
  reassembly [fragment false .text 0x41 (by simp [isControl]),
      fragment true .continuation 0x42 (by simp)]
    (.fragment rfl (.text rfl) rfl (.message rfl (.continuation rfl) rfl rfl .nil)) trivial
    (by
      simp only [mem_cons, not_mem_nil, or_false, forall_eq_or_imp, forall_eq]
      exact ⟨⟨rfl, by decide, by decide⟩, ⟨rfl, by decide, by decide⟩⟩)
    (by decide)

/-- A ping between two fragments takes the first of them with it; and of a list that is a view, the
payload is read from the wrong place. -/
theorem reassembly_fails :
    (∃ (frames : List Frame) (events : List Event) (list : Uint8List),
      Sequence decodeAscii false none frames events ∧ list.Whole ∧
      list.bytes = frames.flatMap Frame.bytes ∧ (addAll decodeAscii (new false) [list]).2 ≠ events) ∧
    ∃ (frames : List Frame) (events : List Event) (list : Uint8List),
      Sequence decodeAscii false none frames events ∧ Separate [] frames ∧
      list.bytes = frames.flatMap Frame.bytes ∧ (addAll decodeAscii (new false) [list]).2 ≠ events := by
  refine ⟨⟨[fragment false .text 0x41 (by simp [isControl]),
      fragment true .ping 0x70 (by simp), fragment true .continuation 0x42 (by simp)],
      [.ping (some [0x70]), .text [0x41, 0x42]],
      ⟨[0x01, 0x01, 0x41, 0x89, 0x01, 0x70, 0x80, 0x01, 0x42], 0, 9⟩,
      .fragment rfl (.text rfl) rfl (.ping rfl rfl (.message rfl (.continuation rfl) rfl rfl .nil)),
      ⟨rfl, by decide, by decide⟩, by decide, by decide⟩,
    ⟨[fragment true .binary 0x41 (by simp)], [.binary [0x41]], ⟨[0x00, 0x00, 0x82, 0x01, 0x41], 2, 3⟩,
      .message rfl (.binary rfl) rfl rfl .nil, trivial, by decide, by decide⟩⟩

end Runs

end DartSdk.Io.WebSocket
