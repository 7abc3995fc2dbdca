import Switchyard.Channel.Message
import Switchyard.Modbus.Service

/-!
# Requests by way of the channel

A request that the relay decoded becomes a command, the owner of the data turns it back into the
request and serves it, the response becomes an answer, and the relay turns that into the response of
the request it holds.

* `Command.ofRequest`, `Command.request?`: a request as a command, and back.
* `Answer.ofResponse`, `Answer.response`: a response as an answer, and back.
-/

namespace Switchyard.Channel

open Modbus

/-- The command of a request. A read names a quantity and a write a value. -/
def Command.ofRequest (id : UInt16) (endpoint : String) (unit : UInt8) (r : Request) : Command where
  id := id
  endpoint := endpoint
  unit := unit
  function := r.function.code
  address := r.address
  quantity := match r with
    | .read _ _ quantity => some quantity
    | .writeCoil _ _ | .writeRegister _ _ => none
  value := match r with
    | .read _ _ _ => none
    | .writeCoil _ value => some (.bool value)
    | .writeRegister _ value => some (.ofWord value)

/-- The request of a command, if it is complete and its value fits the function. -/
def Command.request? (c : Command) : Option Request := do
  match ← Function.ofCode? c.function with
  | .writeCoil => return .writeCoil c.address (← c.value).holds
  | .writeRegister => return .writeRegister c.address (← (← c.value).toRegister.toOption)
  | function => return .read function c.address (← c.quantity)

/-- The answer that carries a response. -/
def Answer.ofResponse (id : UInt16) (function : UInt8) (r : Response) : Answer where
  id := id
  function := function
  values := match r with
    | .bits _ values => some (values.map .bool)
    | .registers _ values => some (values.map .ofWord)
    | .coilWritten _ value => some [.bool value]
    | .registerWritten _ value => some [.ofWord value]
    | .exception _ _ => none
  exception := match r with
    | .exception _ code => some code.code
    | _ => none

/-- The response for a request that nobody could serve. -/
def failure (r : Request) : Response := .exception r.function.code .deviceFailure

/-- The response to a read from the values of an answer: one for each point, or a failure. -/
def readResponse (r : Request) (function : Function) (quantity : UInt16) (values : List Scalar) : Response :=
  if values.length ≠ quantity.toNat then failure r
  else
    match function.table? with
    | none => failure r
    | some table =>
      if table.isBit then .bits function (values.map Scalar.holds)
      else
        match values.mapM Scalar.toRegister with
        | .ok words => .registers function words
        | .error _ => failure r

/-- The response to a request that an answer stands for. An exception counts before values, and an
answer that does not fit the request is a failure. -/
def Answer.response (a : Answer) (r : Request) : Response :=
  match a.exception with
  | some code => .exception r.function.code ((ExceptionCode.ofCode? code).getD .deviceFailure)
  | none =>
    match r with
    | .read function _ quantity => readResponse r function quantity (a.values.getD [])
    | .writeCoil address value => .coilWritten address value
    | .writeRegister address value => .registerWritten address value

/-- Carries out a command on a data model. A command that is no request is refused as an illegal
value. -/
def Command.execute (c : Command) (m : DataModel) : Answer × DataModel :=
  match c.request? with
  | some r =>
    let (response, m) := Modbus.handle m c.unit r
    (.ofResponse c.id c.function response, m)
  | none => (.ofResponse c.id c.function (.exception c.function .illegalValue), m)

end Switchyard.Channel
