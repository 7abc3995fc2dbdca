import Switchyard.Station.Table

/-!
# Function and exception codes

The six functions that are served, and the four ways a request can be refused.
-/

namespace Switchyard.Modbus

inductive Function where
  | readCoils
  | readDiscreteInputs
  | readHoldingRegisters
  | readInputRegisters
  | writeCoil
  | writeRegister
  deriving DecidableEq, Repr

namespace Function

def code : Function → UInt8
  | readCoils => 1
  | readDiscreteInputs => 2
  | readHoldingRegisters => 3
  | readInputRegisters => 4
  | writeCoil => 5
  | writeRegister => 6

def ofCode? (code : UInt8) : Option Function :=
  if code = 1 then some readCoils
  else if code = 2 then some readDiscreteInputs
  else if code = 3 then some readHoldingRegisters
  else if code = 4 then some readInputRegisters
  else if code = 5 then some writeCoil
  else if code = 6 then some writeRegister
  else none

theorem ofCode?_code (f : Function) : ofCode? f.code = some f := by cases f <;> rfl

/-- The table that a read function reads. -/
def table? : Function → Option Table
  | readCoils => some .coil
  | readDiscreteInputs => some .discreteInput
  | readHoldingRegisters => some .holdingRegister
  | readInputRegisters => some .inputRegister
  | writeCoil | writeRegister => none

end Function

/-- Why a request is refused. -/
inductive ExceptionCode where
  | illegalFunction
  | illegalAddress
  | illegalValue
  | deviceFailure
  deriving DecidableEq, Repr

namespace ExceptionCode

def code : ExceptionCode → UInt8
  | illegalFunction => 1
  | illegalAddress => 2
  | illegalValue => 3
  | deviceFailure => 4

def ofCode? (code : UInt8) : Option ExceptionCode :=
  if code = 1 then some illegalFunction
  else if code = 2 then some illegalAddress
  else if code = 3 then some illegalValue
  else if code = 4 then some deviceFailure
  else none

theorem ofCode?_code (e : ExceptionCode) : ofCode? e.code = some e := by cases e <;> rfl

def phrase : ExceptionCode → String
  | illegalFunction => "illegal function"
  | illegalAddress => "illegal data address"
  | illegalValue => "illegal data value"
  | deviceFailure => "server device failure"

def display (e : ExceptionCode) : String := s!"{e.phrase} ({e.code})"

end ExceptionCode
end Switchyard.Modbus
