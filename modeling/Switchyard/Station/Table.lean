/-!
# Point tables

Points are addressed within one of four tables: bits that can be written (coils) and bits that are
inputs, words that can be written (holding registers) and words that are inputs.
-/

namespace Switchyard

inductive Table where
  | coil
  | discreteInput
  | holdingRegister
  | inputRegister
  deriving DecidableEq, Repr

namespace Table

def name : Table → String
  | coil => "coil"
  | discreteInput => "discrete_input"
  | holdingRegister => "holding_register"
  | inputRegister => "input_register"

/-- The table with a given name. -/
def ofName? : String → Option Table
  | "coil" => some coil
  | "discrete_input" => some discreteInput
  | "holding_register" => some holdingRegister
  | "input_register" => some inputRegister
  | _ => none

/-- Whether the points of a table are bits. -/
def isBit : Table → Bool
  | coil | discreteInput => true
  | _ => false

end Table
end Switchyard
