import Switchyard.Modbus.Service
import Switchyard.Station.Control
import Switchyard.Station.Goose

/-!
# Substations

A substation is a data model with the behaviour attached to it: control sessions, the interlock, GOOSE
publishers and the coils that follow breaker positions.

* `writeAttribute`: every write that publishers are to see.
* `select`, `operate`, `cancel`: control of an object by a client.
* `serveModbus`: a request to the register space.
-/

namespace Switchyard

/-- A coil that follows the position of a breaker. -/
structure BreakerBinding where
  path : String
  profile : String
  coil : UInt16
  deriving DecidableEq, Repr

/-- A successful operation, waiting to be announced. -/
structure ControlUpdate where
  path : String
  client : String
  value : Scalar
  time : Millis
  deriving DecidableEq

structure Substation where
  model : DataModel
  sessions : Sessions
  publishers : Goose.Publishers
  interlock : Interlock
  bindings : List BreakerBinding
  /-- The updates not yet taken, the oldest first. -/
  updates : List ControlUpdate
  deriving DecidableEq, Inhabited

/-- Whether a position value means that the breaker is closed: 2 does and 1 does not; another number
does unless it is 0. -/
def closedState? : Scalar → Option Bool
  | .bool b => some b
  | v =>
    match v.toInt64? with
    | some n => some (n ≠ 0 && n ≠ 1)
    | none => v.toFloat?.map (· != 0.0)

namespace Substation

/-- A substation without data. -/
def blank : Substation := ⟨.blank, ∅, ∅, .standard, [], []⟩

/-- Stores an attribute; publishers are told if its value changed. -/
def writeAttribute (s : Substation) (path : String) (value : Scalar) (now : Millis) : Substation :=
  { s with
    model := s.model.write path value
    publishers := if s.model.changes path value then s.publishers.observe path value now else s.publishers }

def select (s : Substation) (path client : String) (now : Millis) : Except Refusal Unit × Substation :=
  let (result, sessions) := s.sessions.select s.model s.interlock path client now
  (result, { s with sessions })

/-- Stamps the time of an object that has one. -/
def stamp (s : Substation) (path : String) (now : Millis) : Substation :=
  let timePath := Path.member path "t"
  if (s.model.value? timePath).isSome then s.writeAttribute timePath (.ofMillis now) now else s

/-- Sets the coils that follow a breaker. -/
def setCoils (s : Substation) (path : String) (closed : Bool) : Substation :=
  { s with
    model := (s.bindings.filter fun b => b.path == path).foldl
      (fun m b => m.modifyProfile b.profile fun p => p.setCoil b.coil closed) s.model }

/-- Hands on the new position of a breaker, if the object is one and the value has a meaning. -/
def followPosition (s : Substation) (path : String) (value : Scalar) : Substation :=
  if Path.namesBreaker path then
    match closedState? value with
    | some closed => s.setCoils path closed
    | none => s
  else s

/-- What a permitted operation does: the status value, the time stamp, the end of the session, the
following coils and the announcement. -/
def perform (s : Substation) (path : String) (value : Scalar) (client : String) (now : Millis) : Substation :=
  let s := (s.writeAttribute (Path.member path "stVal") value now).stamp path now
  let s := { s with sessions := s.sessions.erase path }
  let s := s.followPosition path value
  { s with updates := s.updates ++ [⟨path, client, value, now⟩] }

/-- Operates an object. -/
def operate (s : Substation) (path : String) (value : Scalar) (client : String) (now : Millis) :
    Except Refusal Unit × Substation :=
  match s.sessions.authorize s.model s.interlock path value client now with
  | (.error refusal, sessions) => (.error refusal, { s with sessions })
  | (.ok (), sessions) => (.ok (), { s with sessions }.perform path value client now)

/-- Gives up the selection of an object. -/
def cancel (s : Substation) (path : String) : Substation := { s with sessions := s.sessions.erase path }

/-- Takes the updates that wait to be announced. -/
def takeUpdates (s : Substation) : List ControlUpdate × Substation := (s.updates, { s with updates := [] })

def addPublisher (s : Substation) (path : String) (config : Goose.Config) (dataset : List String) (now : Millis) :
    Substation :=
  { s with publishers := s.publishers.insert path (.register path config dataset s.model now) }

def removePublisher (s : Substation) (path : String) : Substation :=
  { s with publishers := s.publishers.erase path }

def enablePublisher (s : Substation) (path : String) (enabled : Bool) : Substation :=
  { s with publishers := s.publishers.modify path fun p => { p with enabled } }

def configurePublisher (s : Substation) (path : String) (config : Goose.Config) (now : Millis) : Substation :=
  { s with publishers := s.publishers.modify path fun p => p.setConfig config now }

def setDataset (s : Substation) (path : String) (dataset : List String) (now : Millis) : Substation :=
  { s with publishers := s.publishers.modify path fun p => p.setDataset dataset s.model now }

/-- Sends the frames that are due. -/
def transmit (s : Substation) (now : Millis) : List Goose.Frame × Substation :=
  let (frames, publishers) := s.publishers.tick now
  (frames, { s with publishers })

def serveModbus (s : Substation) (unit : UInt8) (r : Modbus.Request) : Modbus.Response × Substation :=
  let (response, model) := Modbus.handle s.model unit r
  (response, { s with model })

end Substation
end Switchyard
