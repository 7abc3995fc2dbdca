import Switchyard.Relay.Pending

/-!
# Control of the relay

Messages on the control channel set the endpoints, the adapter and the model, and answer commands.

* `Relay.setEndpoints`: every listener of one protocol is replaced.
* `Relay.control`: a message comes in.
* `Relay.register`, `Relay.announce`: a control client connects; a control action is reported.
-/

namespace Switchyard.Relay

open Channel

/-- The address that stands for an empty one: that of the adapter, or all of them. -/
def effectiveIp (adapter : Option String) (ip : String) : String :=
  if ip.isEmpty then adapter.getD "0.0.0.0" else ip

/-- Where a listener for a spec is to be. -/
def addressOf (adapter : Option String) (spec : EndpointSpec) : Address := ⟨effectiveIp adapter spec.ip, spec.port⟩

/-- The specs that are bound for a list: the list itself, or one default listener in place of an empty
one, where that is allowed. -/
def effectiveSpecs (s : Settings) (p : Protocol) (specs : List EndpointSpec) : List EndpointSpec :=
  if specs.isEmpty && s.allowDefaults then [{ ip := "", port := s.defaultPort p }] else specs

/-- The messages after a change of listeners: the new list, and a question for the model if somebody
could ask for it and there is none. -/
def announceListeners : Step := fun r =>
  ({ published := .endpointStatusList r.statuses ::
      if r.servesModel && r.model.isNone then [.getIedModel] else [] }, r)

/-- Closes every listener of a protocol with its connections, and binds new ones. -/
def rebind (host : Host) (p : Protocol) (specs : List EndpointSpec) : Step := fun r =>
  let bound := Listener.bindAll host p (addressOf r.adapter) (effectiveSpecs r.settings p specs)
  (∅, { r with
    requested := fun q => if q = p then specs else r.requested q
    listeners := fun q => if q = p then bound else r.listeners q
    connections := r.connections.filter fun _ c => c.protocol != p })

/-- Replaces every listener of a protocol. -/
def setEndpoints (host : Host) (p : Protocol) (specs : List EndpointSpec) : Step :=
  (rebind host p specs).next announceListeners

/-- Drops every listener. -/
def reset (host : Host) : Step := .all (Protocol.all.map fun p => setEndpoints host p [])

/-- Binds the listeners of a protocol again. -/
def renew (host : Host) (p : Protocol) : Step := fun r => setEndpoints host p (r.requested p) r

/-- Chooses the adapter, and binds all listeners again. -/
def bindAdapter (host : Host) (ip : String) : Step := fun r =>
  Step.all (Protocol.all.map (renew host)) { r with adapter := if ip.isEmpty then none else some ip }

/-- What a message does. -/
def handle (host : Host) (m : Moment) : Message → Step
  | .bindAdapter ip => bindAdapter host ip
  | .setEndpoints p specs => setEndpoints host p specs
  | .iedModel model => fun r => (∅, { r with model := some model })
  | .modbusResponse a => complete m a
  | _ => fun r => (∅, r)

/-- The direct reply to a message. -/
def reply? (host : Host) (r : Relay) : Message → Option Message
  | .getAdapters => some (.adapterList host.adapters)
  | .getEndpointStatus => some (.endpointStatusList r.statuses)
  | _ => none

/-- A message comes in: its direct reply, and what it does. -/
def control (host : Host) (m : Moment) (message : Message) (r : Relay) : Option Message × Output × Relay :=
  (r.reply? host message, handle host m message r)

/-- A control client connects. -/
def register (host : Host) : Step := fun r =>
  let r := { r with controlClients := r.controlClients + 1 }
  if r.settings.resetOnConnect then reset host r else (∅, r)

/-- Reports a control action to every control client. -/
def announce (m : Moment) (u : ControlUpdate) : Step := .emit (.publish (.controlUpdate u m.stamp))

end Switchyard.Relay
