import Mathlib.Algebra.Group.Nat.Defs
import Mathlib.Data.List.Basic

/-!
# The WebSocket protocol transformer

`_WebSocketProtocolTransformer` turns the bytes of a connection into messages and control events.
Here is `add` with all it calls: the loop over a buffer, the payload in blocks, unmasking with its
blocks of sixteen bytes, and the ends of frames.

`UTF8.decode` is a parameter.  The host is little-endian.
-/

namespace DartSdk.Io.WebSocket

section Types

abbrev DartString := List UInt16

/-- A list of bytes that starts somewhere in its `ByteBuffer`. -/
structure Uint8List where
  buffer : List UInt8
  offsetInBytes : ℕ
  length : ℕ

inductive State
  | start
  | lenFirst
  | lenRest
  | mask
  | payload
  | closed
  | failure
  deriving DecidableEq

inductive MessageType
  | none
  | text
  | binary
  deriving DecidableEq

inductive Error
  | webSocketException (message : String)
  | formatException
  deriving DecidableEq

/-- What goes to the sink.  Pings and pongs without a payload have none, and the sink is closed with the
close code and the reason that are known by then. -/
inductive Event
  | text (message : DartString)
  | binary (message : List UInt8)
  | ping (payload : Option (List UInt8))
  | pong (payload : Option (List UInt8))
  | close (code : ℕ) (reason : DartString)
  | error (error : Error)
  deriving DecidableEq

structure Transformer where
  serverSide : Bool
  state : State
  fin : Bool
  opcode : ℤ
  len : ℤ
  masked : Bool
  remainingLenBytes : ℤ
  remainingMaskingKeyBytes : ℕ
  remainingPayloadBytes : ℤ
  unmaskingIndex : ℕ
  currentMessageType : MessageType
  closeCode : ℕ
  closeReason : DartString
  maskingBytes : List UInt8
  payload : List UInt8

end Types

section Model

namespace Opcode

def CONTINUATION : ℤ := 0
def TEXT : ℤ := 1
def BINARY : ℤ := 2
def CLOSE : ℤ := 8
def PING : ℤ := 9
def PONG : ℤ := 10

end Opcode

section

variable (list : Uint8List) (s : Transformer) (i : ℕ)

def NO_STATUS_RECEIVED : ℕ := 1005

def new (serverSide : Bool) : Transformer where
  serverSide := serverSide
  state := .start
  fin := false
  opcode := -1
  len := -1
  masked := false
  remainingLenBytes := -1
  remainingMaskingKeyBytes := 4
  remainingPayloadBytes := -1
  unmaskingIndex := 0
  currentMessageType := .none
  closeCode := NO_STATUS_RECEIVED
  closeReason := []
  maskingBytes := [0, 0, 0, 0]
  payload := []

/-- `list[i]` -/
def Uint8List.get : UInt8 := list.buffer.getD (list.offsetInBytes + i) 0

/-- `list[i] ^= mask` -/
def Uint8List.xor (mask : UInt8) : Uint8List :=
  { list with buffer := list.buffer.modify (list.offsetInBytes + i) (· ^^^ mask) }

/-- `_maskingBytes[i & 3]` -/
def maskingByte : UInt8 := s.maskingBytes.getD (i % 4) 0

/-- The loops of `_unmask` that go byte by byte, for that many bytes from `index` on. -/
def unmaskBytes (s : Transformer) (list : Uint8List) (index : ℕ) : ℕ → Transformer × Uint8List
  | 0 => (s, list)
  | count + 1 =>
    unmaskBytes { s with unmaskingIndex := s.unmaskingIndex + 1 }
      (list.xor index (maskingByte s s.unmaskingIndex)) (index + 1) count

/-- The mask block, of which the first byte is the lowest one. -/
def blockMask : ℕ :=
  (((maskingByte s (s.unmaskingIndex + 3)).toNat * 256 +
    (maskingByte s (s.unmaskingIndex + 2)).toNat) * 256 +
    (maskingByte s (s.unmaskingIndex + 1)).toNat) * 256 +
    (maskingByte s s.unmaskingIndex).toNat

/-- A lane of thirty-two bits at `index` in the `ByteBuffer`. -/
def xorLane (buffer : List UInt8) (index mask : ℕ) : List UInt8 :=
  (((buffer.modify index (· ^^^ .ofNat mask)).modify (index + 1) (· ^^^ .ofNat (mask / 256))).modify
    (index + 2) (· ^^^ .ofNat (mask / 256 / 256))).modify (index + 3)
    (· ^^^ .ofNat (mask / 256 / 256 / 256))

/-- The loop over the lanes of an `Int32x4List` view, which starts at `index` in the `ByteBuffer`. -/
def xorLanes (buffer : List UInt8) (index mask : ℕ) : ℕ → List UInt8
  | 0 => buffer
  | lanes + 1 => xorLanes (xorLane buffer index mask) (index + 4) mask lanes

def unmask (index length : ℕ) (list : Uint8List) : Transformer × Uint8List :=
  if 16 ≤ length then
    -- start by aligning to 16 bytes
    let startOffset := 16 - index % 16
    let aligned := unmaskBytes s list index startOffset
    let blockCount := (length - startOffset) / 16
    let buffer := xorLanes aligned.2.buffer (index + startOffset) (blockMask aligned.1) (4 * blockCount)
    unmaskBytes aligned.1 { aligned.2 with buffer := buffer } (index + startOffset + blockCount * 16)
      (length - startOffset - blockCount * 16)
  else unmaskBytes s list index length

def protocolError {α : Type} : Except Error α := .error (.webSocketException "Protocol error")

def isControlFrame : Bool :=
  s.opcode = Opcode.CLOSE ∨ s.opcode = Opcode.PING ∨ s.opcode = Opcode.PONG

def prepareForNextFrame : Transformer :=
  { s with
    state := if s.state ≠ .closed ∧ s.state ≠ .failure then .start else s.state
    fin := false
    opcode := -1
    len := -1
    remainingLenBytes := -1
    remainingMaskingKeyBytes := 4
    remainingPayloadBytes := -1
    unmaskingIndex := 0 }

end

variable (decode : List UInt8 → Option DartString) (s : Transformer)

section

variable (list : Uint8List) (index : ℕ) (byte : UInt8)

def messageFrameEnd : Except Error (Transformer × List Event) :=
  if s.fin then
    match s.currentMessageType with
    | .text =>
      match decode s.payload with
      | none => .error .formatException
      | some message =>
        .ok (prepareForNextFrame { s with payload := [], currentMessageType := .none }, [.text message])
    | .binary =>
      .ok (prepareForNextFrame { s with payload := [], currentMessageType := .none },
        [.binary s.payload])
    | .none => .ok (prepareForNextFrame { s with currentMessageType := .none }, [])
  else .ok (prepareForNextFrame s, [])

/-- The end of a close frame with a payload: the close code and the reason. -/
def closeStatus : Except Error Transformer :=
  match s.payload with
  | [] => .ok { s with closeCode := NO_STATUS_RECEIVED }
  | [_] => protocolError
  | first :: second :: rest =>
    let closeCode := first.toNat * 256 + second.toNat
    if closeCode = NO_STATUS_RECEIVED then protocolError
    else if rest = [] then .ok { s with closeCode := closeCode }
    else
      match decode rest with
      | none => .error .formatException
      | some closeReason => .ok { s with closeCode := closeCode, closeReason := closeReason }

def controlFrameEnd : Except Error (Transformer × List Event) :=
  if s.opcode = Opcode.CLOSE then
    (closeStatus decode s).map fun s =>
      (prepareForNextFrame { s with state := .closed, payload := [] }, [.close s.closeCode s.closeReason])
  else if s.opcode = Opcode.PING then
    .ok (prepareForNextFrame { s with payload := [] }, [.ping (some s.payload)])
  else if s.opcode = Opcode.PONG then
    .ok (prepareForNextFrame { s with payload := [] }, [.pong (some s.payload)])
  else .ok (prepareForNextFrame s, [])

/-- The end of a control frame without a payload. -/
def emptyControlFrame : Transformer × List Event :=
  if s.opcode = Opcode.CLOSE then
    (prepareForNextFrame { s with state := .closed }, [.close s.closeCode s.closeReason])
  else if s.opcode = Opcode.PING then (prepareForNextFrame s, [.ping none])
  else if s.opcode = Opcode.PONG then (prepareForNextFrame s, [.pong none])
  else (prepareForNextFrame s, [])

def startPayload : Except Error (Transformer × List Event) :=
  if s.remainingPayloadBytes = 0 then
    if isControlFrame s then .ok (emptyControlFrame s) else messageFrameEnd decode s
  else .ok ({ s with state := .payload }, [])

def lengthDone : Except Error (Transformer × List Event) :=
  if s.masked then
    if !s.serverSide then .error (.webSocketException "Received masked frame from server")
    else .ok ({ s with state := .mask }, [])
  else if s.serverSide then .error (.webSocketException "Received unmasked frame from client")
  else startPayload decode { s with remainingPayloadBytes := s.len }

def maskDone : Except Error (Transformer × List Event) :=
  startPayload decode { s with remainingPayloadBytes := s.len }

def parseStart : Except Error Transformer :=
  if byte &&& 0x70 ≠ 0 then protocolError
  else
    let s := { s with fin := byte &&& 0x80 ≠ 0, opcode := (byte &&& 0xF).toNat }
    if s.opcode ≤ Opcode.BINARY then
      if s.opcode = Opcode.CONTINUATION then
        if s.currentMessageType = .none then protocolError else .ok { s with state := .lenFirst }
      else if s.currentMessageType ≠ .none then protocolError
      else
        .ok { s with
          currentMessageType := if s.opcode = Opcode.TEXT then .text else .binary
          state := .lenFirst }
    else if Opcode.CLOSE ≤ s.opcode ∧ s.opcode ≤ Opcode.PONG then
      if !s.fin then protocolError else .ok { s with state := .lenFirst }
    else protocolError

def parseLenFirst : Except Error (Transformer × List Event) :=
  let s := { s with masked := byte &&& 0x80 ≠ 0, len := (byte &&& 0x7F).toNat }
  if isControlFrame s ∧ 125 < s.len then protocolError
  else if s.len = 126 then .ok ({ s with len := 0, remainingLenBytes := 2, state := .lenRest }, [])
  else if s.len = 127 then .ok ({ s with len := 0, remainingLenBytes := 8, state := .lenRest }, [])
  else lengthDone decode s

/-- A byte of the length; `_len << 8 | byte`. -/
def parseLenRest : Except Error (Transformer × List Event) :=
  let s := { s with len := s.len * 256 + byte.toNat, remainingLenBytes := s.remainingLenBytes - 1 }
  if s.remainingLenBytes = 0 then lengthDone decode s else .ok (s, [])

def parseMask : Except Error (Transformer × List Event) :=
  let s := { s with
    maskingBytes := s.maskingBytes.set (4 - s.remainingMaskingKeyBytes) byte
    remainingMaskingKeyBytes := s.remainingMaskingKeyBytes - 1 }
  if s.remainingMaskingKeyBytes = 0 then maskDone decode s else .ok (s, [])

def afterPayload : Except Error (Transformer × List Event) :=
  if isControlFrame s then
    if s.remainingPayloadBytes = 0 then controlFrameEnd decode s else .ok (s, [])
  else if s.currentMessageType ≠ .text ∧ s.currentMessageType ≠ .binary then protocolError
  else if s.remainingPayloadBytes = 0 then messageFrameEnd decode s
  else .ok (s, [])

/-- A block of the payload.  The view starts at `index` in the `ByteBuffer`. -/
def parsePayload : Except Error (Transformer × List Event) × Uint8List × ℕ :=
  let payloadLength := min (list.length - index) s.remainingPayloadBytes.toNat
  let s := { s with remainingPayloadBytes := s.remainingPayloadBytes - payloadLength }
  let unmasked := if s.masked then unmask s index payloadLength list else (s, list)
  let view := (unmasked.2.buffer.drop index).take payloadLength
  (afterPayload decode { unmasked.1 with payload := unmasked.1.payload ++ view }, unmasked.2,
    index + payloadLength)

/-- A round of the loop of `add`: the result, the list after it and the next index. -/
def round : Except Error (Transformer × List Event) × Uint8List × ℕ :=
  match s.state with
  | .start => ((parseStart s (list.get index)).map fun s => (s, []), list, index + 1)
  | .lenFirst => (parseLenFirst decode s (list.get index), list, index + 1)
  | .lenRest => (parseLenRest decode s (list.get index), list, index + 1)
  | .mask => (parseMask decode s (list.get index), list, index + 1)
  | .payload | .closed | .failure => parsePayload decode s list index

end

/-- The loop of `add`.  An exception is reported and ends the work, as the stream is cancelled on
error. -/
def loop : ℕ → Transformer → Uint8List → ℕ → Transformer × List Event
  | 0, s, _, _ => (s, [])
  | fuel + 1, s, list, index =>
    if index < list.length ∧ s.state ≠ .closed ∧ s.state ≠ .failure then
      match round decode s list index with
      | (.error e, _, _) => ({ s with state := .failure }, [.error e])
      | (.ok (s', events), list', index') =>
        let rest := loop fuel s' list' index'
        (rest.1, events ++ rest.2)
    else (s, [])

/-- `add`.  Every round but the last one of a payload that is over takes a byte. -/
def add (list : Uint8List) : Transformer × List Event :=
  if s.state = .closed then (s, [.error (.webSocketException "Data on closed connection")])
  else if s.state = .failure then (s, [.error (.webSocketException "Data on failed connection")])
  else loop decode (2 * list.length) s list 0

def addAll (s : Transformer) : List Uint8List → Transformer × List Event
  | [] => (s, [])
  | list :: lists =>
    let first := add decode s list
    let rest := addAll first.1 lists
    (rest.1, first.2 ++ rest.2)

end Model

end DartSdk.Io.WebSocket
