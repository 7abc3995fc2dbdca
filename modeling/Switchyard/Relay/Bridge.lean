import Switchyard.Relay.Control

/-!
# Bridge

The bridge owns a substation and listens to the relay: it sets the endpoints, carries out commands and
tells the model when it is asked.

* `Bridge.start`: the relay with the endpoints of a bridge.
* `Bridge.follow`: the bridge's part after a step of the relay.
* `Bridge.drive`: both together.
-/

namespace Switchyard

open Channel

/-- The owner of the data: what it offers to clients. -/
structure Bridge where
  model : Option IedNode

namespace Bridge

/-- The reply to a message of the relay, with what it does to the substation. -/
def reply (b : Bridge) (m : Message) (s : Substation) : Option Message × Substation :=
  match m with
  | .modbusCommand c =>
    let (answer, model) := c.execute s.model
    (some (.modbusResponse answer), { s with model })
  | .getIedModel => (b.model.map .iedModel, s)
  | _ => (none, s)

/-- Hands the bridge's reply to a message back to the relay. -/
def answer (b : Bridge) (host : Relay.Host) (moment : Relay.Moment) (m : Message) (s : Substation) (r : Relay) :
    Relay.Output × Substation × Relay :=
  let (message, s) := b.reply m s
  match message with
  | some message => let (o, r) := Relay.handle host moment message r; (o, s, r)
  | none => (∅, s, r)

/-- Replies to messages in their order. What a reply makes the relay publish needs no reply itself. -/
def follow (b : Bridge) (host : Relay.Host) (moment : Relay.Moment) :
    List Message → Substation → Relay → Relay.Output × Substation × Relay
  | [], s, r => (∅, s, r)
  | m :: rest, s, r =>
    let (o, s, r) := b.answer host moment m s r
    let (o', s, r) := b.follow host moment rest s r
    (o ++ o', s, r)

/-- A step of the relay, and after it the part of a bridge, if there is one. -/
def drive (b : Option Bridge) (host : Relay.Host) (moment : Relay.Moment) (step : Relay.Step) (s : Substation)
    (r : Relay) : Relay.Output × Substation × Relay :=
  let (o, r) := step r
  match b with
  | some b =>
    let (o', s, r) := b.follow host moment o.published s r
    (o ++ o', s, r)
  | none => (o, s, r)

/-- Tells the relay the model and sets its endpoints. -/
def start (b : Bridge) (host : Relay.Host) (moment : Relay.Moment) (endpoints : List (Protocol × List EndpointSpec)) :
    Relay.Step :=
  .all ((b.model.toList.map fun model => Relay.handle host moment (.iedModel model)) ++
    endpoints.map fun e => Relay.handle host moment (.setEndpoints e.1 e.2))

end Bridge
end Switchyard
