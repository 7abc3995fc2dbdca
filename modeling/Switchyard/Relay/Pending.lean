import Switchyard.Channel.Command
import Switchyard.Modbus.Frame
import Switchyard.Relay.Basic

/-!
# Pending requests

A request is decoded, passed on as a command, and held under its transaction id until it is answered or
too old. One that cannot be passed on is answered as failed at once.

* `Relay.request`: a frame of a client comes in.
* `Relay.complete`: an answer comes in.
* `Relay.sweep`: requests that are too old are answered as failed.
-/

namespace Switchyard.Relay

open Channel Modbus

/-- The report on a frame. -/
def traceFrame (m : Moment) (d : Direction) (endpoint : String) (transaction : UInt16) (function : UInt8)
    (bytes : Bytes) : Step :=
  .emit (.publish (.modbusTrace ⟨d, endpoint, transaction, function, bytes.hex, m.stamp⟩))

/-- Sends a reply to a client that is still connected, and reports it. -/
def deliver (m : Moment) (transaction : UInt16) (p : Pending) (response : Response) : Step := fun r =>
  if r.connections.contains p.connection then
    let bytes := encodeFrame transaction p.unit response.encode
    ((traceFrame m .outgoing p.endpoint transaction response.codeByte bytes).next
      (.emit (.send p.connection bytes))) r
  else (∅, r)

/-- Answers the request with a transaction id, if there is one. -/
def settle (m : Moment) (transaction : UInt16) (response : Request → Response) : Step := fun r =>
  match r.pending.get? transaction with
  | some p => deliver m transaction p (response p.request) { r with pending := r.pending.erase transaction }
  | none => (∅, r)

/-- An answer to a command comes in. -/
def complete (m : Moment) (a : Answer) : Step := settle m a.id a.response

/-- Whether a request is too old. -/
def isExpired (s : Settings) (m : Moment) (p : Pending) : Bool :=
  s.requestTimeout.toNat ≤ m.elapsed - p.created

/-- The transaction ids of the requests that are too old. -/
def expired (r : Relay) (m : Moment) : List UInt16 := (r.pending.filter fun _ p => isExpired r.settings m p).keys

/-- Answers every request that is too old as failed. -/
def sweep (m : Moment) : Step := fun r =>
  Step.all ((r.expired m).map fun transaction => settle m transaction failure) r

/-- Refuses a frame that holds no request. -/
def refuse (m : Moment) (c : ConnectionId) (endpoint : String) (h : Header) (e : DecodeError) : Step :=
  let bytes := encodeFrame h.transaction h.unit e.response.encode
  (traceFrame m .outgoing endpoint h.transaction (e.function ||| 0x80) bytes).next (.emit (.send c bytes))

/-- Holds a request, in place of one with the same transaction id. -/
def hold (transaction : UInt16) (p : Pending) : Step := fun r =>
  (∅, { r with pending := r.pending.insert transaction p })

/-- Passes a request on. It is answered as failed if nobody hears the command. -/
def passOn (heard : Bool) (m : Moment) (spec : EndpointSpec) (transaction : UInt16) (p : Pending) : Step :=
  (hold transaction p).next
    (if heard then
      .emit (.publish (.modbusCommand (.ofRequest transaction p.endpoint (spec.unit.getD p.unit) p.request)))
    else settle m transaction failure)

/-- A frame comes in on a connection. -/
def request (heard : Bool) (m : Moment) (id : ConnectionId) (c : Connection) (f : Frame) : Step :=
  let h := f.header
  let endpoint := c.address.label
  (traceFrame m .incoming endpoint h.transaction (f.pdu.headD 0) (encodeFrame h.transaction h.unit f.pdu)).next
    (match Request.decode f.pdu with
    | .error e => refuse m id endpoint h e
    | .ok request => passOn heard m c.spec h.transaction ⟨request, h.unit, endpoint, id, m.elapsed⟩)

end Switchyard.Relay
