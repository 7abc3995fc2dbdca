import Switchyard.Json.Fields

/-!
# Endpoints

A listener is asked for by an `EndpointSpec` and reported by an `EndpointStatus`. A spec without an
address stands for the adapter that is bound at the time; one with a backend host passes its clients
on to another device.
-/

namespace Switchyard.Channel

open Json

/-- What listeners speak. -/
inductive Protocol where
  | modbus
  | iec61850
  deriving DecidableEq, Repr

namespace Protocol

/-- Every protocol, in the order of reports. -/
def all : List Protocol := [modbus, iec61850]

def name : Protocol → String
  | modbus => "modbus"
  | iec61850 => "iec61850"

def ofName? (s : String) : Option Protocol := all.find? fun p => p.name == s

def toJson (p : Protocol) : Json := string p.name

def ofJson? (d : Dialect) : Decode Protocol := fun v => (asWord d v).bind ofName?

end Protocol

/-- A listener that is asked for. -/
structure EndpointSpec where
  ip : String
  port : UInt16
  name : Option String := none
  /-- Takes the place of the unit id that requests come with. -/
  unit : Option UInt8 := none
  backendHost : Option String := none
  backendPort : Option UInt16 := none
  deriving DecidableEq, Repr

namespace EndpointSpec

/-- Where clients are passed on to, if they are: a host that is not empty, at the port of the
listener unless another one is given. -/
def backend? (s : EndpointSpec) : Option String :=
  (s.backendHost.filter fun host => !host.isEmpty).map fun host =>
    host ++ ":" ++ toString (s.backendPort.getD s.port).toNat

def toJson (s : EndpointSpec) : Json :=
  object ([("ip", string s.ip), ("port", int s.port.toNat)] ++ optionalMember "name" string s.name ++
    optionalMember "unitId" (fun n => int n.toNat) s.unit ++
    optionalMember "backendHost" string s.backendHost ++
    optionalMember "backendPort" (fun n => int n.toNat) s.backendPort)

/-- A spec of which only the port has to be given. -/
def ofJson? : Decode EndpointSpec := fun v => do
  match ← fields .plain [["ip"], ["port"], ["name"], ["unitId", "unit_id"], ["backendHost", "backend_host"],
      ["backendPort", "backend_port"]] v with
  | [ip, port, name, unit, host, backendPort] =>
    return {
      ip := ← orElse "" asString ip
      port := ← required asUInt16 port
      name := ← optional asString name
      unit := ← optional asUInt8 unit
      backendHost := ← optional asString host
      backendPort := ← optional asUInt16 backendPort }
  | _ => none

end EndpointSpec

/-- The state of a listener as it is reported. -/
structure EndpointStatus where
  protocol : Protocol
  ip : String
  port : UInt16
  name : Option String
  /-- Whether it listens. -/
  active : Bool
  clientCount : Nat
  /-- The port it listens on, which differs from a `port` of 0. -/
  localPort : Option UInt16
  error : Option String
  deriving DecidableEq, Repr

namespace EndpointStatus

/-- The word for a listener that listens, or that could not. -/
def stateName (active : Bool) : String := if active then "active" else "failed"

def stateOfJson? (d : Dialect) : Decode Bool := fun v =>
  (asWord d v).bind fun s => [true, false].find? fun active => stateName active == s

def toJson (s : EndpointStatus) : Json :=
  object ([("protocol", s.protocol.toJson), ("ip", string s.ip), ("port", int s.port.toNat)] ++
    optionalMember "name" string s.name ++
    [("status", string (stateName s.active)), ("clientCount", int s.clientCount)] ++
    optionalMember "localPort" (fun n => int n.toNat) s.localPort ++
    optionalMember "error" string s.error)

def ofJson? (d : Dialect) : Decode EndpointStatus := fun v => do
  match ← fields d [["protocol"], ["ip"], ["port"], ["name"], ["status"], ["clientCount"], ["localPort"],
      ["error"]] v with
  | [protocol, ip, port, name, status, clientCount, localPort, error] =>
    return {
      protocol := ← required (Protocol.ofJson? d) protocol
      ip := ← required asString ip
      port := ← required asUInt16 port
      name := ← optional asString name
      active := ← required (stateOfJson? d) status
      clientCount := ← required (asNat (UInt64.size - 1)) clientCount
      localPort := ← optional asUInt16 localPort
      error := ← optional asString error }
  | _ => none

end EndpointStatus

/-- An address of this machine that listeners can use. -/
structure Adapter where
  name : String
  ip : String
  deriving DecidableEq, Repr

namespace Adapter

def toJson (a : Adapter) : Json := object [("name", string a.name), ("ip", string a.ip)]

def ofJson? : Decode Adapter := fun v => do
  match ← fields .plain [["name"], ["ip"]] v with
  | [name, ip] => return ⟨← required asString name, ← required asString ip⟩
  | _ => none

end Adapter
end Switchyard.Channel
