import Switchyard.Mms.Exchange
import Switchyard.Relay.Pending

/-!
# Client traffic

Clients connect to listeners and send bytes. Modbus frames become requests, packets of IEC 61850
clients are answered on the spot, and where a listener has a backend the bytes are passed on.

* `Relay.accept`, `Relay.disconnect`: a client comes and goes.
* `Relay.receive`: bytes of a client come in.
-/

namespace Switchyard.Relay

open Channel

/-- Why a client cannot connect. -/
inductive AcceptError where
  | noListener
  | unreachable
  deriving DecidableEq, Repr

/-- A client connects to the first listener of a protocol at an IP address, or at any one if it is
empty. The answer is the number of the connection. -/
def accept (host : Host) (p : Protocol) (ip : String) (r : Relay) : Except AcceptError (ConnectionId × Relay) :=
  match (r.listeners p).entries.find? fun e => ip.isEmpty || e.1.ip == ip with
  | some (a, l) =>
    if !l.isBound then .error .noListener
    else if !host.admits a then .error .unreachable
    else
      .ok (r.nextConnection, { r with
        connections := r.connections.insert r.nextConnection ⟨p, a, l.spec, []⟩
        nextConnection := r.nextConnection + 1 })
  | none => .error .noListener

/-- A client is gone. -/
def disconnect (id : ConnectionId) : Step := fun r => (∅, { r with connections := r.connections.erase id })

/-- Keeps the bytes that are left of what a client sent, or drops the client after an error. -/
def keep {ε : Type} (id : ConnectionId) (error : Option ε) (rest : Bytes) : Step :=
  match error with
  | some _ => disconnect id
  | none => fun r => (∅, { r with connections := r.connections.modify id fun c => { c with buffer := rest } })

/-- What is known about logical devices. -/
def domains (r : Relay) : Mms.Domains := ⟨r.logicalDevices.head?.map IedNode.name, r.logicalDevices.length⟩

/-- The report on a packet. -/
def tracePacket (m : Moment) (d : Direction) (endpoint : String) (kind : Mms.Kind) (bytes : Bytes) : Step :=
  .emit (.publish (.iecTrace ⟨d, endpoint, kind.name, bytes.hex, m.stamp⟩))

/-- A packet comes in on a connection. -/
def exchange (m : Moment) (id : ConnectionId) (c : Connection) (packet : Bytes) : Step := fun r =>
  let e := Mms.answer packet r.domains
  let endpoint := c.address.label
  (tracePacket m .incoming endpoint e.kind packet).next
    (match e.reply with
    | some bytes => (tracePacket m .outgoing endpoint e.kind bytes).next (.emit (.send id bytes))
    | none => .emit ∅) r

/-- Bytes come in on a connection. -/
def receive (heard : Bool) (m : Moment) (id : ConnectionId) (bytes : Bytes) : Step := fun r =>
  match r.connections.get? id with
  | none => (∅, r)
  | some c =>
    if c.spec.backend?.isSome then ({ forwarded := [(id, bytes)] }, r)
    else
      match c.protocol with
      | .modbus =>
        let s := Modbus.splitFrames (c.buffer ++ bytes)
        (Step.all (s.frames.map (request heard m id c))).next (keep id s.error s.rest) r
      | .iec61850 =>
        let s := Mms.splitPackets (c.buffer ++ bytes)
        (Step.all (s.packets.map (exchange m id c))).next (keep id s.error s.rest) r

end Switchyard.Relay
