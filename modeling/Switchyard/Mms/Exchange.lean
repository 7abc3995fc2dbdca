import Switchyard.Mms.Packet
import Switchyard.Mms.Tlv

/-!
# Exchanges

A client that opens an association and asks for the names of logical devices is answered packet by
packet: messages are told apart by their leading tags, and no state is kept.

* `answer`: the answer to a packet, if there is one, and what kind of packet it was.
* `acceptConnect`: an association request turned into its acceptance, with three of its tags replaced.
* `nameListResponse`, `reject`: the two answers to confirmed requests.
-/

namespace Switchyard.Mms

/-- The logical devices that are known: the name of the first one, and how many there are. -/
structure Domains where
  first : Option String
  count : Nat
  deriving DecidableEq, Repr

/-- The name that is reported when no logical device is known. -/
def standInDomain : String := "SIMULATED"

/-- What a packet turned out to be. -/
inductive Kind where
  | unknown
  | connectionRequest
  | initiate
  | sessionConnect
  | conclude
  | nameList
  | reject
  deriving DecidableEq, Repr

def Kind.name : Kind → String
  | unknown => "unknown"
  | connectionRequest => "cotp-cr"
  | initiate => "initiate"
  | sessionConnect => "session-connect"
  | conclude => "conclude"
  | nameList => "get-name-list"
  | reject => "reject"

/-- A packet's kind and the packet that answers it. -/
structure Exchange where
  kind : Kind
  reply : Option Bytes
  deriving DecidableEq, Repr

/-- The answer to an initiate request: units of 65000 bytes, 5 outstanding each way, nesting 10,
version 1, and the parameter and service sets that clients expect. -/
def initiateResponse : Bytes :=
  [0xA9, 0x26, 0x80, 0x03, 0x00, 0xFD, 0xE8, 0x81, 0x01, 0x05, 0x82, 0x01, 0x05, 0x83, 0x01,
   0x0A, 0xA4, 0x16, 0x80, 0x01, 0x01, 0x81, 0x03, 0x05, 0xF1, 0x00, 0x82, 0x0C, 0x03, 0xEE,
   0x1C, 0x00, 0x00, 0x04, 0x08, 0x00, 0x00, 0x79, 0xEF, 0x18]

/-- The confirmation of a transport connection, which echoes the caller's reference. -/
def connectionConfirm : Bytes → Option Bytes
  | _ :: _ :: _ :: _ :: high :: low :: _ =>
    some [0x09, 0xD0, high, low, 0x00, 0x01, 0x00, 0xC0, 0x01, 0x0A]
  | _ => none

/-- Where the initiate request of an association request starts: in the user information, or
anywhere after the association tag. -/
def findInitiate (bytes : Bytes) (association : Nat) : Option Nat :=
  ((indexOfTag bytes 0xBE (association + 1)).bind fun info => indexOfTag bytes 0xA8 (info + 1)).or
    (indexOfTag bytes 0xA8 (association + 1))

/-- The acceptance of an association request: its bytes, with the tags of the session unit, the
association and the initiate request replaced. -/
def acceptConnect (connect : Bytes) : Option Bytes := do
  if connect.isEmpty then none
  let accept := connect.set 0 0x0E
  let association ← indexOfTag accept 0x60 1
  let accept := accept.set association 0x61
  let initiate ← findInitiate accept association
  return accept.set initiate 0xA9

/-- The header of a session data unit. -/
def sessionData : Bytes := [0x01, 0x00, 0x01, 0x00]

/-- The value at the front of some bytes, if it has a given tag. -/
def readTagged (tag : UInt8) (bytes : Bytes) : Option Tlv := (takeTlv bytes).filter fun t => t.tag == tag

/-- The message inside fully encoded presentation data of context 3. -/
def outOfPresentation (data : Bytes) : Option Bytes := do
  let encoded ← readTagged 0x61 data
  let values ← readTagged 0x30 encoded.content
  let context ← readTagged 0x02 values.content
  if context.content ≠ [3] then none
  let message ← readTagged 0xA0 context.rest
  return message.content

/-- A message as session data. -/
def inPresentation (message : Bytes) : Bytes :=
  sessionData ++ tlv 0x61 (tlv 0x30 ([0x02, 0x01, 3] ++ tlv 0xA0 message))

/-- The invoke id and the service tag of a confirmed request. -/
def confirmedRequest (message : Bytes) : Option (Bytes × UInt8) := do
  let request ← readTagged 0xA0 message
  let invoke ← readTagged 0x02 request.content
  let service ← invoke.rest.head?
  return (invoke.content, service)

/-- The answer to a request for names: the first logical device, and whether there are more. -/
def nameListResponse (invokeId : Bytes) (domains : Domains) : Bytes :=
  let name := (domains.first.getD standInDomain).toUTF8.toList
  let more : UInt8 := if 1 < domains.count then 0xFF else 0x00
  let names := tlv 0xA0 (tlv 0x1A name) ++ [0x81, 0x01, more]
  tlv 0xA1 (tlv 0x02 invokeId ++ tlv 0xA1 names)

/-- The rejection of a request for a service that is not supported. -/
def reject (invokeId : Bytes) : Bytes := tlv 0xA4 (tlv 0x80 invokeId ++ [0x81, 0x01, 0x01])

/-- The answer to a message. -/
def respondMessage (message : Bytes) (domains : Domains) : Exchange :=
  match message.head? with
  | some 0xA8 => ⟨.initiate, some initiateResponse⟩
  | some 0x8B => ⟨.conclude, some [0x8C, 0x00]⟩
  | some 0xA0 =>
    match confirmedRequest message with
    | some (invokeId, service) =>
      if service = 0xA1 then ⟨.nameList, some (nameListResponse invokeId domains)⟩
      else ⟨.reject, some (reject invokeId)⟩
    | none => ⟨.unknown, none⟩
  | _ => ⟨.unknown, none⟩

/-- The answer to the payload of a data unit. A message comes bare or as session data, and is answered
in the same way. -/
def answerData (payload : Bytes) (domains : Domains) : Exchange :=
  match payload.head? with
  | none => ⟨.unknown, none⟩
  | some 0xA8 => ⟨.initiate, some (dataPacket initiateResponse)⟩
  | some 0x0D => ⟨.sessionConnect, (acceptConnect payload).map dataPacket⟩
  | some _ =>
    if sessionData.isPrefixOf payload then
      match outOfPresentation (payload.drop sessionData.length) with
      | some message =>
        let e := respondMessage message domains
        { e with reply := e.reply.map fun r => dataPacket (inPresentation r) }
      | none => ⟨.unknown, none⟩
    else
      let e := respondMessage payload domains
      { e with reply := e.reply.map dataPacket }

/-- The answer to a packet. -/
def answer (p : Bytes) (domains : Domains) : Exchange :=
  match p.drop packetHeaderLength with
  | length :: code :: rest =>
    let unit := length :: code :: rest
    if code &&& 0xF0 = 0xE0 then ⟨.connectionRequest, (connectionConfirm unit).map packet⟩
    else if code &&& 0xF0 = 0xF0 then answerData (unit.drop (1 + length.toNat)) domains
    else ⟨.unknown, none⟩
  | _ => ⟨.unknown, none⟩

end Switchyard.Mms
