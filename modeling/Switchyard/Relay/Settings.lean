import Switchyard.Channel.Endpoint
import Switchyard.Scalar

/-!
# Settings of the relay

The tunables of the relay, their standard values and their written form.
-/

namespace Switchyard.Relay

open Json

structure Settings where
  /-- Where the control channel is served. -/
  controlHost : String
  controlPort : UInt16
  /-- Whether a protocol without endpoints gets one listener at its usual port. -/
  allowDefaults : Bool
  /-- Whether a new control client starts from empty endpoint lists. -/
  resetOnConnect : Bool
  /-- How old a request gets before it is answered as failed. -/
  requestTimeout : Millis
  sweepInterval : Millis
  modbusPort : UInt16
  iecPort : UInt16
  deriving DecidableEq, Repr

namespace Settings

def standard : Settings := ⟨"127.0.0.1", 34001, false, false, 5000, 1000, 502, 102⟩

/-- The usual port of a protocol. -/
def defaultPort (s : Settings) : Channel.Protocol → UInt16
  | .modbus => s.modbusPort
  | .iec61850 => s.iecPort

/-- The tunables; what is missing has its standard value. -/
def ofJson? (d : Dialect) : Decode Settings := fun v => do
  match ← fields d [["control_host"], ["control_port"], ["allow_default_listeners"], ["reset_on_connect"],
      ["request_timeout_ms"], ["sweep_interval_ms"], ["modbus_default_port"], ["iec61850_default_port"]] v with
  | [host, port, allow, reset, timeout, sweep, modbus, iec] =>
    return {
      controlHost := ← orElse standard.controlHost asString host
      controlPort := ← orElse standard.controlPort asUInt16 port
      allowDefaults := ← orElse standard.allowDefaults asBool allow
      resetOnConnect := ← orElse standard.resetOnConnect asBool reset
      requestTimeout := ← orElse standard.requestTimeout asUInt64 timeout
      sweepInterval := ← orElse standard.sweepInterval asUInt64 sweep
      modbusPort := ← orElse standard.modbusPort asUInt16 modbus
      iecPort := ← orElse standard.iecPort asUInt16 iec }
  | _ => none

def toJson (s : Settings) : Json :=
  object [("control_host", string s.controlHost), ("control_port", int s.controlPort.toNat),
    ("allow_default_listeners", bool s.allowDefaults), ("reset_on_connect", bool s.resetOnConnect),
    ("request_timeout_ms", int s.requestTimeout.toNat), ("sweep_interval_ms", int s.sweepInterval.toNat),
    ("modbus_default_port", int s.modbusPort.toNat), ("iec61850_default_port", int s.iecPort.toNat)]

end Settings
end Switchyard.Relay
