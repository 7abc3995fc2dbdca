import Switchyard.Channel.Health
import Switchyard.Channel.Message
import Switchyard.Relay.Listener
import Switchyard.Relay.Settings

/-!
# Relay

The relay stands between clients of the plant and the owner of its data. It keeps the listeners of each
protocol, the clients that are connected to them, and the Modbus requests that wait for an answer from
the owner.

* `Relay.Step`: a change of the relay, with what goes out over it.
* `Relay.statuses`, `Relay.health`, `Relay.domains`: reports on a relay.
-/

namespace Switchyard

open Channel

namespace Relay

/-- The number of a connection; numbers are not used again. -/
abbrev ConnectionId := Nat

/-- A client that is connected. -/
structure Connection where
  protocol : Protocol
  /-- The listener that it came in on. -/
  address : Address
  spec : EndpointSpec
  /-- The bytes that do not make up a whole frame or packet yet. -/
  buffer : Bytes
  deriving DecidableEq, Repr

/-- A request that was passed on and waits for its answer. -/
structure Pending where
  request : Modbus.Request
  /-- The unit id that the client named, which the reply repeats. -/
  unit : UInt8
  endpoint : String
  connection : ConnectionId
  /-- When it came in, in milliseconds of a clock that never jumps. -/
  created : Nat
  deriving DecidableEq, Repr

/-- The time of an event: that of a clock that never jumps, and that of the wall clock. -/
structure Moment where
  elapsed : Nat
  stamp : Timestamp

/-- What goes out at an event: messages on the control channel, bytes to clients, and bytes of clients
that are passed on to another device. -/
structure Output where
  published : List Message := []
  sent : List (ConnectionId × Bytes) := []
  forwarded : List (ConnectionId × Bytes) := []

instance : Append Output where
  append a b := ⟨a.published ++ b.published, a.sent ++ b.sent, a.forwarded ++ b.forwarded⟩

instance : EmptyCollection Output := ⟨{}⟩

def Output.publish (m : Message) : Output := { published := [m] }

def Output.send (c : ConnectionId) (bytes : Bytes) : Output := { sent := [(c, bytes)] }

end Relay

structure Relay where
  settings : Relay.Settings
  /-- The address that stands for an empty one. -/
  adapter : Option String
  /-- The endpoints asked for last. -/
  requested : Protocol → List EndpointSpec
  listeners : Protocol → SortedMap Relay.Address Relay.Listener
  connections : SortedMap Relay.ConnectionId Relay.Connection
  nextConnection : Relay.ConnectionId
  /-- Requests by their transaction ids. -/
  pending : SortedMap UInt16 Relay.Pending
  /-- The model that clients are told about. -/
  model : Option IedNode
  /-- How many control clients are connected. -/
  controlClients : Nat

namespace Relay

/-- A relay without listeners. -/
def new (settings : Settings) : Relay := ⟨settings, none, fun _ => [], fun _ => ∅, ∅, 0, ∅, none, 0⟩

/-- A change of the relay, with what goes out. -/
abbrev Step := Relay → Output × Relay

/-- One step after another. -/
def Step.next (f g : Step) : Step := fun r =>
  let (a, r) := f r
  let (b, r) := g r
  (a ++ b, r)

/-- Steps one after the other. -/
def Step.all : List Step → Step
  | [] => fun r => (∅, r)
  | f :: rest => f.next (Step.all rest)

/-- A step that only sends something out. -/
def Step.emit (o : Output) : Step := fun r => (o, r)

/-- How many clients a listener has. -/
def clientCount (r : Relay) (p : Protocol) (a : Address) : Nat :=
  r.connections.values.countP fun c => c.protocol == p && c.address == a

/-- The listeners of a protocol, in the order of their addresses. -/
def statusesOf (r : Relay) (p : Protocol) : List EndpointStatus :=
  (r.listeners p).entries.map fun (a, l) => l.status p a (r.clientCount p a)

def statuses (r : Relay) : List EndpointStatus := Protocol.all.flatMap r.statusesOf

def health (r : Relay) : Health where
  endpoints := r.statuses
  adapter := r.adapter
  controlClients := r.controlClients
  pendingRequests := r.pending.size

/-- The logical devices of the model. -/
def logicalDevices (r : Relay) : List IedNode := (r.model.map IedNode.logicalDevices).getD []

/-- Whether somebody can ask for the model. -/
def servesModel (r : Relay) : Bool := (r.listeners .iec61850).values.any Listener.isBound

end Relay
end Switchyard
