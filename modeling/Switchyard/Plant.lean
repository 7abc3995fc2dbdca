import Switchyard.Project.Apply
import Switchyard.Relay.Bridge

/-!
# Plants

A plant is an engine with the relay that its clients come in on. The bridge, if there is one, lets the
relay reach the engine's substation.

* `Plant.carryOut`: a step of the relay, with the bridge's part in it.
* `Plant.connect`: a bridge takes over the relay.
* `Plant.period`: one period of the engine.
-/

namespace Switchyard

structure Plant where
  engine : Engine
  relay : Relay
  bridge : Option Bridge

namespace Plant

/-- A step of the relay, and what the bridge does to the substation because of it. -/
def carryOut (host : Relay.Host) (moment : Relay.Moment) (step : Relay.Step) (p : Plant) : Relay.Output × Plant :=
  let (out, substation, relay) := Bridge.drive p.bridge host moment step p.engine.substation p.relay
  (out, { p with relay, engine := { p.engine with substation } })

/-- A bridge takes over the relay: it offers its model and sets the endpoints. -/
def connect (host : Relay.Host) (moment : Relay.Moment) (b : Bridge)
    (endpoints : List (Channel.Protocol × List Channel.EndpointSpec)) (p : Plant) : Relay.Output × Plant :=
  { p with bridge := some b }.carryOut host moment (b.start host moment endpoints)

/-- A tick of the engine, and the report of its control actions on the control channel. -/
def period (host : Relay.Host) (moment : Relay.Moment) (now : Millis) (p : Plant) :
    Engine.Report × Relay.Output × Plant :=
  let (report, engine) := p.engine.tick now
  (report, { p with engine }.carryOut host moment (.all (report.updates.map (Relay.announce moment))))

end Plant
end Switchyard
