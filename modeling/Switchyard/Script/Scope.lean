import Switchyard.Script.Error

/-!
# Scopes

A `Scope` holds the variables of a running program in order of declaration. Assignments convert to
the declared type. A state constant has a `Timer`, which remembers when `STATE` last moved to the
constant's value; that is what `stepTime` reports.

* `set`: assignment with conversion.
* `followState`: called after every statement; restarts the timers of the value `STATE` moved to.
* `snapshot`: all variables, in order.
-/

namespace Switchyard.Script

/-- When `STATE` last moved to a value. -/
structure Timer where
  target : Int64
  enteredAt : Option Millis
  deriving DecidableEq

/-- The time since the last move to the value, zero if there was none. -/
def Timer.elapsed (t : Timer) (now : Millis) : Millis :=
  match t.enteredAt with
  | some entered => Millis.minus now entered
  | none => 0

/-- A variable and its value. -/
structure Binding where
  key : String
  name : String
  type : TypeName
  value : Scalar
  timer : Option Timer
  deriving DecidableEq

/-- The variables of a program and the last integer seen in `STATE`. -/
structure Scope where
  bindings : List Binding
  lastState : Option Int64
  deriving DecidableEq

/-- A row of a snapshot. -/
structure Row where
  name : String
  type : TypeName
  value : Scalar
  stepTime : Option Millis
  deriving DecidableEq

/-- The key of the variable whose moves drive the timers. -/
def stateKey : String := "STATE"

/-- Converts a value to the type of the variable it is assigned to. -/
def convert (type : TypeName) (name : String) (value : Scalar) : Except RuntimeError Scalar :=
  match type, value with
  | t, .null => .ok t.initial
  | .bool, .bool b => .ok (.bool b)
  | .bool, .int n => .ok (.bool (n != 0))
  | .bool, .real x => .ok (.bool (x != 0.0))
  | .int, .int n | .time, .int n => .ok (.int n)
  | .int, .real x | .time, .real x => .ok (.int (Binary64.toInt64Sat x))
  | .int, .bool b | .time, .bool b => .ok (.int (if b then 1 else 0))
  | .real, .real x => .ok (.real x)
  | .real, .int n => .ok (.real (Binary64.ofInt64 n))
  | .real, .bool b => .ok (.real (if b then 1.0 else 0.0))
  | .string, .text s => .ok (.text s)
  | .string, v => .ok (.text v.display)
  | t, v => .error ⟨.cannotAssign v.kind name t, none⟩

namespace Scope

def find? (s : Scope) (key : String) : Option Binding := s.bindings.find? fun b => b.key == key

/-- The value of a variable. -/
def get? (s : Scope) (key : String) : Option Scalar := (s.find? key).map Binding.value

/-- The value of a variable named in any letter case. -/
def lookup? (s : Scope) (name : String) : Option Scalar := s.get? (Text.upper name)

/-- Changes the variable of a key. -/
def modify (s : Scope) (key : String) (f : Binding → Binding) : Scope :=
  { s with bindings := s.bindings.map fun b => if b.key == key then f b else b }

/-- Assigns to a variable, converting to its type. -/
def set (s : Scope) (key : String) (value : Scalar) : Except RuntimeError Scope :=
  match s.find? key with
  | none => .error ⟨.unknownVariable key, none⟩
  | some b =>
    match convert b.type b.name value with
    | .error e => .error e
    | .ok v => .ok (s.modify key fun b => { b with value := v })

/-- The time since `STATE` moved to the value of a constant. -/
def stepTime? (s : Scope) (key : String) (now : Millis) : Option Millis :=
  ((s.find? key).bind Binding.timer).map fun t => t.elapsed now

/-- Restarts the timers of a value. -/
def restart (target : Int64) (now : Millis) (b : Binding) : Binding :=
  { b with timer := b.timer.map fun t => if t.target = target then { t with enteredAt := some now } else t }

/-- Observes `STATE`: when its integer differs from the last one seen, the timers of the constants
with that value start anew. -/
def followState (s : Scope) (now : Millis) : Scope :=
  match (s.get? stateKey).bind Scalar.toInt64? with
  | none => s
  | some current =>
    if s.lastState = some current then s
    else ⟨s.bindings.map (restart current now), some current⟩

/-- All variables in order of declaration. -/
def snapshot (s : Scope) (now : Millis) : List Row :=
  s.bindings.map fun b => ⟨b.name, b.type, b.value, b.timer.map fun t => t.elapsed now⟩

def size (s : Scope) : Nat := s.bindings.length

/-- The scope before any initializer has run. -/
def ofDecls (vars : List Declaration) : Scope :=
  ⟨vars.map fun d => ⟨d.key, d.name, d.type, d.type.initial, none⟩, none⟩

/-- Gives a state constant the timer of its value. -/
def startTimer (s : Scope) (key : String) : Scope :=
  s.modify key fun b => { b with timer := some ⟨(b.value.toInt64?).getD 0, none⟩ }

end Scope
end Switchyard.Script
