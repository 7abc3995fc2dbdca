import Switchyard.Bytes

/-!
# Packets

On a stream, each transport unit stands behind a header of four bytes: version 3, a zero, and the
length of the whole packet.

* `nextPacket`: the first complete packet of a buffer, header included.
* `splitPackets`: all complete packets of a buffer, up to the first one that is no packet.
-/

namespace Switchyard.Mms

def packetHeaderLength : Nat := 4

/-- Why a stream cannot be read any further. -/
inductive PacketError where
  | version (v : UInt8)
  | length (n : UInt16)
  deriving DecidableEq, Repr

def PacketError.message : PacketError → String
  | version v => s!"bad TPKT version 0x{Bytes.hex [v]}"
  | length n => s!"bad TPKT length {n}"

/-- The first packet of a buffer and the bytes after it; nothing as long as it is incomplete. -/
def nextPacket (buffer : Bytes) : Except PacketError (Option (Bytes × Bytes)) :=
  match buffer with
  | version :: _ :: high :: low :: _ =>
    let length := Bytes.word high low
    if version ≠ 3 then .error (.version version)
    else if length.toNat < packetHeaderLength + 2 then .error (.length length)
    else if buffer.length < length.toNat then .ok none
    else .ok (some (buffer.take length.toNat, buffer.drop length.toNat))
  | _ => .ok none

/-- The packet of a transport unit. Its length counts modulo `2 ^ 16`. -/
def packet (unit : Bytes) : Bytes :=
  [3, 0] ++ Bytes.ofWord (UInt16.ofNat (packetHeaderLength + unit.length)) ++ unit

/-- The packet of a data unit. -/
def dataPacket (payload : Bytes) : Bytes := packet ([0x02, 0xF0, 0x80] ++ payload)

/-- What a buffer holds: complete packets, perhaps an error, and the bytes that are left. -/
structure Split where
  packets : List Bytes
  error : Option PacketError
  rest : Bytes
  deriving DecidableEq, Repr

/-- Splits a buffer into packets until one is incomplete or wrong; an error uses up nothing. A packet
is never empty, so each round leaves a shorter buffer. -/
def splitPackets (buffer : Bytes) : Split :=
  match nextPacket buffer with
  | .error e => ⟨[], some e, buffer⟩
  | .ok none => ⟨[], none, buffer⟩
  | .ok (some (p, rest)) =>
    if rest.length < buffer.length then
      let s := splitPackets rest
      { s with packets := p :: s.packets }
    else ⟨[p], none, rest⟩
  termination_by buffer.length

end Switchyard.Mms
