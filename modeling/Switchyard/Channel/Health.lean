import Switchyard.Channel.Endpoint

/-!
# Health

The report on all listeners: idle without any, degraded as soon as one could not be bound, serving
otherwise. Only listeners that listen are counted by protocol.
-/

namespace Switchyard.Channel

open Json

inductive Condition where
  | idle
  | serving
  | degraded
  deriving DecidableEq, Repr

def Condition.name : Condition → String
  | idle => "idle"
  | serving => "serving"
  | degraded => "degraded"

/-- The condition of some listeners. -/
def Condition.of (endpoints : List EndpointStatus) : Condition :=
  if endpoints.isEmpty then idle
  else if endpoints.any fun e => !e.active then degraded
  else serving

structure Health where
  endpoints : List EndpointStatus
  adapter : Option String := none
  controlClients : Nat := 0
  pendingRequests : Nat := 0
  deriving DecidableEq, Repr

namespace Health

/-- The version that reports carry. -/
def version : String := "0.1.0"

def condition (h : Health) : Condition := .of h.endpoints

/-- How many listeners of a protocol listen. -/
def listening (h : Health) (p : Protocol) : Nat :=
  h.endpoints.countP fun e => e.protocol == p && e.active

def toJson (h : Health) : Json :=
  object ([("condition", string h.condition.name), ("version", string version)] ++
    optionalMember "adapter" string h.adapter ++
    [("controlClients", int h.controlClients), ("pendingRequests", int h.pendingRequests),
     ("modbusListeners", int (h.listening .modbus)), ("iec61850Listeners", int (h.listening .iec61850)),
     ("endpoints", array (h.endpoints.map EndpointStatus.toJson))])

end Health
end Switchyard.Channel
