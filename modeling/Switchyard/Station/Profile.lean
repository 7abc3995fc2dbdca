import Switchyard.Scalar
import Switchyard.SortedMap
import Switchyard.Station.Table

/-!
# Profiles

A `Profile` is the register space of one device: four tables of points, each sorted by address.
-/

namespace Switchyard

structure Profile where
  id : String
  /-- The unit id that addresses the profile. -/
  unit : Option UInt8
  coils : SortedMap UInt16 Bool
  discreteInputs : SortedMap UInt16 Bool
  holdingRegisters : SortedMap UInt16 UInt16
  inputRegisters : SortedMap UInt16 UInt16
  deriving DecidableEq, Inhabited

/-- A point: its table, its address and its value. -/
structure Point where
  table : Table
  address : UInt16
  value : Scalar
  deriving DecidableEq

namespace Profile

/-- A profile without points. -/
def blank (id : String) : Profile := ⟨id, none, ∅, ∅, ∅, ∅⟩

/-- The bit at an address of a bit table. -/
def bit? (p : Profile) : Table → UInt16 → Option Bool
  | .coil, a => p.coils.get? a
  | .discreteInput, a => p.discreteInputs.get? a
  | _, _ => none

/-- The word at an address of a register table. -/
def register? (p : Profile) : Table → UInt16 → Option UInt16
  | .holdingRegister, a => p.holdingRegisters.get? a
  | .inputRegister, a => p.inputRegisters.get? a
  | _, _ => none

/-- Whether a table has a point at an address. -/
def contains (p : Profile) (table : Table) (a : UInt16) : Bool :=
  (p.bit? table a).isSome || (p.register? table a).isSome

/-- The value of a point. -/
def point? (p : Profile) (table : Table) (a : UInt16) : Option Scalar :=
  if table.isBit then (p.bit? table a).map .bool else (p.register? table a).map .ofWord

def setCoil (p : Profile) (a : UInt16) (b : Bool) : Profile := { p with coils := p.coils.insert a b }

def setHolding (p : Profile) (a : UInt16) (w : UInt16) : Profile :=
  { p with holdingRegisters := p.holdingRegisters.insert a w }

def setInput (p : Profile) (a : UInt16) (w : UInt16) : Profile :=
  { p with inputRegisters := p.inputRegisters.insert a w }

/-- Adds a point or changes its value; bits take the truth of the value. -/
def set (p : Profile) (table : Table) (a : UInt16) (value : Scalar) : Except Scalar.RegisterError Profile :=
  match table with
  | .coil => .ok (p.setCoil a value.holds)
  | .discreteInput => .ok { p with discreteInputs := p.discreteInputs.insert a value.holds }
  | .holdingRegister => value.toRegister.map (p.setHolding a)
  | .inputRegister => value.toRegister.map (p.setInput a)

/-- All points, table by table. -/
def points (p : Profile) : List Point :=
  (p.coils.entries.map fun e => ⟨.coil, e.1, .bool e.2⟩) ++
  (p.discreteInputs.entries.map fun e => ⟨.discreteInput, e.1, .bool e.2⟩) ++
  (p.holdingRegisters.entries.map fun e => ⟨.holdingRegister, e.1, .ofWord e.2⟩) ++
  (p.inputRegisters.entries.map fun e => ⟨.inputRegister, e.1, .ofWord e.2⟩)

end Profile
end Switchyard
