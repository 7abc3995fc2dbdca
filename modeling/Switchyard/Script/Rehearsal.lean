import Switchyard.Script.Execution
import Switchyard.SortedMap

/-!
# Rehearsals

A rehearsal runs a program on a device that stands for itself alone: it answers from given values,
remembers what is written to it, and notes every call.

* `Rehearsal.device`: that device.
* `Execution.rehearse`: a run, step by step, with the variables that each step changed.
-/

namespace Switchyard.Script

/-- A call of a program, with the answer to a read. -/
inductive DeviceCall where
  | readInput (address : UInt16) (answer : Bool)
  | readRegister (address answer : UInt16)
  | writeCoil (address : UInt16) (value : Bool)
  | writeRegister (address value : UInt16)
  | getDA (path : String) (answer : Scalar)
  | setDA (path : String) (value : Scalar)
  | log (level : LogLevel) (message : String)
  deriving DecidableEq

/-- The state of a device that notes its calls. Inputs that are not given are off, registers hold 0 and
attributes `null`. -/
structure Rehearsal where
  time : Millis
  inputs : SortedMap UInt16 Bool
  registers : SortedMap UInt16 UInt16
  attributes : SortedMap String Scalar
  /-- The calls so far, the first one first. -/
  calls : List DeviceCall := []

namespace Rehearsal

def note (r : Rehearsal) (call : DeviceCall) : Rehearsal := { r with calls := r.calls ++ [call] }

/-- The device that notes its calls. Coils are only noted; registers and attributes are remembered. -/
def device : Device Rehearsal where
  now r := r.time
  readInput a r :=
    let b := (r.inputs.get? a).getD false
    (b, r.note (.readInput a b))
  readRegister a r :=
    let w := (r.registers.get? a).getD 0
    (w, r.note (.readRegister a w))
  writeCoil a b r := r.note (.writeCoil a b)
  writeRegister a w r := { r with registers := r.registers.insert a w }.note (.writeRegister a w)
  getDA path r :=
    let v := (r.attributes.get? path).getD .null
    (v, r.note (.getDA path v))
  setDA path v r := { r with attributes := r.attributes.insert path v }.note (.setDA path v)
  log level message r := r.note (.log level message)

end Rehearsal

/-- A step of a rehearsal: how it ended, how many blocks are open after it, the variables it changed,
and its calls. -/
structure RehearsedStep where
  outcome : Except RuntimeError Outcome
  depth : Nat
  changes : List (String × Scalar)
  calls : List DeviceCall

/-- The variables whose values differ between two scopes of one program. -/
def Scope.changes (before after : Scope) : List (String × Scalar) :=
  ((before.bindings.zip after.bindings).filter fun (a, b) => a.value ≠ b.value).map fun (_, b) => (b.name, b.value)

/-- Runs a program until it ends, fails or has made so many steps; time passes after each step that
suspends. The answer holds the steps, the last scope and the last state of the device. -/
def Execution.rehearse (e : Execution) (stepTime : Millis) (scope : Scope) (r : Rehearsal) :
    Nat → List RehearsedStep × Scope × Rehearsal
  | 0 => ([], scope, r)
  | most + 1 =>
    let s := e.step Rehearsal.device scope { r with calls := [] }
    let step : RehearsedStep := ⟨s.outcome, s.execution.depth, scope.changes s.scope, s.state.calls⟩
    match s.outcome with
    | .ok (.suspended _) =>
      let (steps, last) :=
        s.execution.rehearse stepTime s.scope { s.state with time := s.state.time + stepTime } most
      (step :: steps, last)
    | _ => ([step], s.scope, s.state)

end Switchyard.Script
