import Switchyard.Channel.Endpoint
import Switchyard.Channel.Timestamp
import Switchyard.Modbus.Pdu
import Switchyard.Station.IedNode
import Switchyard.Station.Substation

/-!
# Control messages

The relay and the side that owns the data talk in messages. Adapters, endpoints and models are asked
for and announced; requests of Modbus clients become commands, which are answered under the same
number; traffic and control actions are reported as they happen.

* `Message.kind`: the word that marks each kind of message.
-/

namespace Switchyard.Channel

/-- A request of a Modbus client, to be carried out by the owner of the data. -/
structure Command where
  id : UInt16
  /-- The listener that it came in on. -/
  endpoint : String
  unit : UInt8
  function : UInt8
  address : UInt16
  quantity : Option UInt16
  value : Option Scalar

/-- The answer to the command of the same number. -/
structure Answer where
  id : UInt16
  function : UInt8
  values : Option (List Scalar)
  exception : Option UInt8

/-- Which way traffic went, seen from the relay. -/
inductive Direction where
  | incoming
  | outgoing
  deriving DecidableEq, Repr

def Direction.name : Direction → String
  | incoming => "in"
  | outgoing => "out"

/-- A Modbus frame that was read or written. -/
structure ModbusTrace where
  direction : Direction
  endpoint : String
  transaction : UInt16
  function : UInt8
  hex : String
  timestamp : Timestamp
  deriving DecidableEq, Repr

/-- A packet of an IEC 61850 client that was read or written. -/
structure IecTrace where
  direction : Direction
  endpoint : String
  kind : String
  hex : String
  timestamp : Timestamp
  deriving DecidableEq, Repr

/-- A message between the relay and the owner of the data. -/
inductive Message where
  | getAdapters
  | adapterList (adapters : List Adapter)
  | bindAdapter (ip : String)
  | setEndpoints (protocol : Protocol) (endpoints : List EndpointSpec)
  | getEndpointStatus
  | endpointStatusList (endpoints : List EndpointStatus)
  | getIedModel
  | iedModel (model : IedNode)
  | modbusCommand (command : Command)
  | modbusResponse (answer : Answer)
  | modbusTrace (trace : ModbusTrace)
  | iecTrace (trace : IecTrace)
  | controlUpdate (update : ControlUpdate) (timestamp : Timestamp)

/-- The word that marks the messages of one kind. -/
def Message.kind : Message → String
  | getAdapters => "GET_ADAPTERS"
  | adapterList _ => "ADAPTER_LIST"
  | bindAdapter _ => "BIND_ADAPTER"
  | setEndpoints _ _ => "SET_PROTOCOL_ENDPOINTS"
  | getEndpointStatus => "GET_ENDPOINT_STATUS"
  | endpointStatusList _ => "ENDPOINT_STATUS_LIST"
  | getIedModel => "GET_IED_MODEL"
  | iedModel _ => "IED_MODEL"
  | modbusCommand _ => "MODBUS_CMD"
  | modbusResponse _ => "MODBUS_RESP"
  | modbusTrace _ => "MODBUS_TRACE"
  | iecTrace _ => "IEC_TRACE"
  | controlUpdate _ _ => "CONTROL_UPDATE"

end Switchyard.Channel
