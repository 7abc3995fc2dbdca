import Switchyard.Channel.Message

/-!
# Written form of messages

A message is an object whose member `type` bears the word for its kind, followed by its fields;
fields without a value are left out.

* `Message.toJson`, `Message.ofJson?`: writing and reading.
-/

namespace Switchyard.Channel

open Json

def Command.members (c : Command) : List (String × Json) :=
  [("requestId", int c.id.toNat), ("endpoint", string c.endpoint), ("unitId", int c.unit.toNat),
    ("functionCode", int c.function.toNat), ("address", int c.address.toNat)] ++
    optionalMember "quantity" (fun n => int n.toNat) c.quantity ++ optionalMember "value" ofScalar c.value

def Answer.members (a : Answer) : List (String × Json) :=
  [("requestId", int a.id.toNat), ("functionCode", int a.function.toNat)] ++
    optionalMember "values" (fun vs => array (vs.map ofScalar)) a.values ++
    optionalMember "exceptionCode" (fun n => int n.toNat) a.exception

def ModbusTrace.members (t : ModbusTrace) : List (String × Json) :=
  [("direction", string t.direction.name), ("endpoint", string t.endpoint),
    ("transactionId", int t.transaction.toNat), ("functionCode", int t.function.toNat), ("hex", string t.hex),
    ("timestamp", string t.timestamp.render)]

def IecTrace.members (t : IecTrace) : List (String × Json) :=
  [("direction", string t.direction.name), ("endpoint", string t.endpoint), ("kind", string t.kind),
    ("hex", string t.hex), ("timestamp", string t.timestamp.render)]

namespace Message

/-- The fields of a message. -/
def members : Message → List (String × Json)
  | getAdapters | getEndpointStatus | getIedModel => []
  | adapterList adapters => [("adapters", array (adapters.map Adapter.toJson))]
  | bindAdapter ip => [("ip", string ip)]
  | setEndpoints protocol endpoints =>
    [("protocol", protocol.toJson), ("endpoints", array (endpoints.map EndpointSpec.toJson))]
  | endpointStatusList endpoints => [("endpoints", array (endpoints.map EndpointStatus.toJson))]
  | iedModel model => [("model", model.toJson)]
  | modbusCommand command => command.members
  | modbusResponse answer => answer.members
  | modbusTrace trace => trace.members
  | iecTrace trace => trace.members
  | controlUpdate update timestamp =>
    [("path", string update.path), ("client", string update.client), ("value", ofScalar update.value),
      ("timeMs", int update.time.toNat), ("timestamp", string timestamp.render)]

def toJson (m : Message) : Json := object (("type", string m.kind) :: m.members)

end Message

def Command.ofJson? : Decode Command := fun v => do
  match ← fields .carried [["requestId"], ["endpoint"], ["unitId"], ["functionCode"], ["address"], ["quantity"],
      ["value"]] v with
  | [id, endpoint, unit, function, address, quantity, value] =>
    return {
      id := ← required asUInt16 id
      endpoint := ← required asString endpoint
      unit := ← required asUInt8 unit
      function := ← required asUInt8 function
      address := ← required asUInt16 address
      quantity := ← optional asUInt16 quantity
      value := ← optional toScalar? value }
  | _ => none

def Answer.ofJson? : Decode Answer := fun v => do
  match ← fields .carried [["requestId"], ["functionCode"], ["values"], ["exceptionCode"]] v with
  | [id, function, values, exception] =>
    return {
      id := ← required asUInt16 id
      function := ← required asUInt8 function
      values := ← optional (Json.listOf toScalar?) values
      exception := ← optional asUInt8 exception }
  | _ => none

def Direction.ofJson? : Decode Direction := fun v =>
  (asWord .carried v).bind fun s => [Direction.incoming, .outgoing].find? fun d => d.name == s

def Timestamp.ofJson? : Decode Timestamp := fun v => (asString v).bind Timestamp.ofText?

def ModbusTrace.ofJson? : Decode ModbusTrace := fun v => do
  match ← fields .carried [["direction"], ["endpoint"], ["transactionId"], ["functionCode"], ["hex"],
      ["timestamp"]] v with
  | [direction, endpoint, transaction, function, hex, timestamp] =>
    return {
      direction := ← required Direction.ofJson? direction
      endpoint := ← required asString endpoint
      transaction := ← required asUInt16 transaction
      function := ← required asUInt8 function
      hex := ← required asString hex
      timestamp := ← required Timestamp.ofJson? timestamp }
  | _ => none

def IecTrace.ofJson? : Decode IecTrace := fun v => do
  match ← fields .carried [["direction"], ["endpoint"], ["kind"], ["hex"], ["timestamp"]] v with
  | [direction, endpoint, kind, hex, timestamp] =>
    return {
      direction := ← required Direction.ofJson? direction
      endpoint := ← required asString endpoint
      kind := ← required asString kind
      hex := ← required asString hex
      timestamp := ← required Timestamp.ofJson? timestamp }
  | _ => none

namespace Message

/-- The word that marks a message, and the rest of it. -/
def tagged : Json → Option (String × Json)
  | object members =>
    match members.filter fun m => m.1 == "type" with
    | [(_, string tag)] => some (tag, object (members.filter fun m => m.1 != "type"))
    | _ => none
  | array (string tag :: rest) => some (tag, array rest)
  | _ => none

/-- A message without fields. -/
def bare (m : Message) (body : Json) : Option Message := (fields .carried [] body).map fun _ => m

/-- A message with one field. -/
def single {α : Type} (name : String) (decode : Decode α) (body : Json) : Option α := do
  match ← fields .carried [[name]] body with
  | [v] => required decode v
  | _ => none

def setEndpointsOf? (body : Json) : Option Message := do
  match ← fields .carried [["protocol"], ["endpoints"]] body with
  | [protocol, endpoints] =>
    return .setEndpoints (← required (Protocol.ofJson? .carried) protocol)
      (← required (Json.listOf EndpointSpec.ofJson?) endpoints)
  | _ => none

def controlUpdateOf? (body : Json) : Option Message := do
  match ← fields .carried [["path"], ["client"], ["value"], ["timeMs"], ["timestamp"]] body with
  | [path, client, value, time, timestamp] =>
    let update : ControlUpdate := {
      path := ← required asString path
      client := ← required asString client
      value := ← required toScalar? value
      time := ← required asUInt64 time }
    return .controlUpdate update (← required Timestamp.ofJson? timestamp)
  | _ => none

/-- The message of an object. Unknown members are passed over. -/
def ofJson? : Decode Message := fun v => do
  let (tag, body) ← tagged v
  match tag with
  | "GET_ADAPTERS" => bare .getAdapters body
  | "ADAPTER_LIST" => return .adapterList (← single "adapters" (Json.listOf Adapter.ofJson?) body)
  | "BIND_ADAPTER" => return .bindAdapter (← single "ip" asString body)
  | "SET_PROTOCOL_ENDPOINTS" => setEndpointsOf? body
  | "GET_ENDPOINT_STATUS" => bare .getEndpointStatus body
  | "ENDPOINT_STATUS_LIST" =>
    return .endpointStatusList (← single "endpoints" (Json.listOf (EndpointStatus.ofJson? .carried)) body)
  | "GET_IED_MODEL" => bare .getIedModel body
  | "IED_MODEL" => return .iedModel (← single "model" IedNode.ofJson? body)
  | "MODBUS_CMD" => return .modbusCommand (← Command.ofJson? body)
  | "MODBUS_RESP" => return .modbusResponse (← Answer.ofJson? body)
  | "MODBUS_TRACE" => return .modbusTrace (← ModbusTrace.ofJson? body)
  | "IEC_TRACE" => return .iecTrace (← IecTrace.ofJson? body)
  | "CONTROL_UPDATE" => controlUpdateOf? body
  | _ => none

end Message
end Switchyard.Channel
