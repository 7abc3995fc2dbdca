import Switchyard.Bytes

/-!
# Framing

On a stream, each PDU stands behind a header of seven bytes: transaction id, protocol id (always 0),
length (unit id and PDU) and unit id.

* `takeFrame`: the first complete frame of a buffer.
* `splitFrames`: all complete frames of a buffer, up to the first one that is no frame.
-/

namespace Switchyard.Modbus

/-- The size of a header. -/
def headerLength : Nat := 7

/-- The largest PDU. -/
def maxPduLength : Nat := 253

structure Header where
  transaction : UInt16
  protocol : UInt16
  /-- The length of unit id and PDU. -/
  length : UInt16
  unit : UInt8
  deriving DecidableEq, Repr

def Header.encode (h : Header) : Bytes :=
  Bytes.ofWord h.transaction ++ Bytes.ofWord h.protocol ++ Bytes.ofWord h.length ++ [h.unit]

/-- The header at the front of a buffer. -/
def Header.decode? : Bytes → Option Header
  | a :: b :: c :: d :: e :: f :: unit :: _ => some ⟨Bytes.word a b, Bytes.word c d, Bytes.word e f, unit⟩
  | _ => none

/-- The length of the PDU behind a header. A length of 0 counts as 1: no PDU at all. -/
def Header.pduLength (h : Header) : Nat := h.length.toNat - 1

structure Frame where
  header : Header
  pdu : Bytes
  deriving DecidableEq, Repr

/-- Why a stream cannot be read any further. -/
inductive FrameError where
  | protocol (id : UInt16)
  | length (n : UInt16)
  deriving DecidableEq, Repr

def FrameError.message : FrameError → String
  | protocol id => s!"Unsupported protocol id {id}"
  | length n => s!"Invalid MBAP length {n}"

/-- The first frame of a buffer and the bytes after it; nothing as long as it is incomplete. -/
def takeFrame (buffer : Bytes) : Except FrameError (Option (Frame × Bytes)) :=
  match Header.decode? buffer with
  | none => .ok none
  | some h =>
    if h.protocol ≠ 0 then .error (.protocol h.protocol)
    else if maxPduLength < h.pduLength then .error (.length h.length)
    else if buffer.length < headerLength + h.pduLength then .ok none
    else
      let body := buffer.drop headerLength
      .ok (some (⟨h, body.take h.pduLength⟩, body.drop h.pduLength))

/-- The frame of a PDU. Its length counts modulo `2 ^ 16`. -/
def encodeFrame (transaction : UInt16) (unit : UInt8) (pdu : Bytes) : Bytes :=
  Header.encode ⟨transaction, 0, (pdu.length + 1).toUInt16, unit⟩ ++ pdu

/-- What a buffer holds: complete frames, perhaps an error, and the bytes that are left. -/
structure Split where
  frames : List Frame
  error : Option FrameError
  rest : Bytes
  deriving DecidableEq, Repr

/-- Splits a buffer into frames until one is incomplete or wrong; an error uses up nothing. A frame
has at least its header, so each round leaves a shorter buffer. -/
def splitFrames (buffer : Bytes) : Split :=
  match takeFrame buffer with
  | .error e => ⟨[], some e, buffer⟩
  | .ok none => ⟨[], none, buffer⟩
  | .ok (some (frame, rest)) =>
    if rest.length < buffer.length then
      let s := splitFrames rest
      { s with frames := frame :: s.frames }
    else ⟨[frame], none, rest⟩
  termination_by buffer.length

end Switchyard.Modbus
