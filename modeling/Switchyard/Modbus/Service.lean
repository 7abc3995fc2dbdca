import Switchyard.Modbus.Pdu
import Switchyard.Station.DataModel

/-!
# Serving requests

A request touches only points that exist. A read answers all of its points or none, and a write
changes the one point it names.
-/

namespace Switchyard.Modbus

/-- The addresses of a read. They wrap at the end of the address range; `readFrom` rules that out. -/
def addresses (start : UInt16) (quantity : Nat) : List UInt16 :=
  (List.range quantity).map fun i => start + UInt16.ofNat i

/-- The points of a table from an address on. -/
def readFrom (p : Profile) (function : Function) (table : Table) (start quantity : UInt16) : Option Response :=
  if 65536 < start.toNat + quantity.toNat then none
  else if table.isBit then
    ((addresses start quantity.toNat).mapM (p.bit? table)).map (.bits function)
  else ((addresses start quantity.toNat).mapM (p.register? table)).map (.registers function)

/-- The refusal of a request for points that do not exist. -/
def illegalAddress (r : Request) : Response := .exception r.function.code .illegalAddress

/-- Serves a request on the profile with an id, or on the default one. -/
def execute (m : DataModel) (profileId : String) (r : Request) : Response × DataModel :=
  let p := m.profile profileId
  match r with
  | .read function address quantity =>
    match function.table? with
    | none => (.exception function.code .illegalFunction, m)
    | some table => ((readFrom p function table address quantity).getD (illegalAddress r), m)
  | .writeCoil address value =>
    if p.coils.contains address then
      (.coilWritten address value, m.modifyProfile profileId fun p => p.setCoil address value)
    else (illegalAddress r, m)
  | .writeRegister address value =>
    if p.holdingRegisters.contains address then
      (.registerWritten address value, m.modifyProfile profileId fun p => p.setHolding address value)
    else (illegalAddress r, m)

/-- Serves a request on the profile that a unit id addresses. -/
def handle (m : DataModel) (unit : UInt8) (r : Request) : Response × DataModel :=
  execute m (m.profileOfUnit unit) r

end Switchyard.Modbus
