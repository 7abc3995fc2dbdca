import Switchyard.Engine.Breakpoint
import Switchyard.Script.Execution
import Switchyard.SortedMap
import Switchyard.Station.DataModel

/-!
# Controllers

A controller runs one program, over and over, on one profile. Between its turns it keeps the program
with its scope, the cycle in progress, its breakpoints, and the last lines and messages for the
debugger.

* `load`: installs a program, or changes nothing if the text is rejected.
* `reset`: drops the cycle in progress.
* `due`: whether a cycle is in progress or the next one is to start.
-/

namespace Switchyard.Engine

open Script

/-- The description of a controller. -/
structure ControllerConfig where
  id : String
  name : Option String
  /-- The profile that the program's device functions address. -/
  profile : String
  enabled : Bool
  /-- The time from the end of a cycle to the start of the next; a default is used without it. -/
  tickRate : Option Millis
  deriving DecidableEq, Repr

/-- A message of a program. -/
structure LogEntry where
  level : LogLevel
  message : String
  deriving DecidableEq, Repr

/-- The number of messages that are kept. -/
def logSize : Nat := 200

/-- Appends to a list of bounded length, which loses its first item when it is full. -/
def remember {α : Type} (capacity : Nat) (items : List α) (item : α) : List α :=
  (if capacity ≤ items.length then items.tail else items) ++ [item]

/-- A program with its variables and, within a cycle, its execution. -/
structure Task where
  program : Program
  scope : Scope
  execution : Option Execution

structure Controller where
  id : String
  name : Option String
  profile : String
  enabled : Bool
  tickRate : Millis
  task : Option Task
  breakpoints : SortedMap UInt32 Breakpoint
  /-- The line of the last statement that ran in this cycle. -/
  currentLine : Option UInt32
  /-- The last lines, the oldest first. -/
  history : List UInt32
  historyCapacity : Nat
  /-- The last messages, the oldest first. -/
  logs : List LogEntry
  /-- The end of the last complete cycle. -/
  lastCycle : Option Millis

/-- Why a text cannot be installed. -/
inductive LoadError where
  | rejected (e : CompileError)
  /-- An initializer failed. -/
  | initializer (e : RuntimeError)
  deriving DecidableEq

def LoadError.display : LoadError → String
  | rejected e => e.display
  | initializer e => e.display

namespace Controller

/-- A controller without a program. -/
def ofConfig (config : ControllerConfig) (defaultTickRate : Millis) (historyCapacity : Nat) : Controller :=
  { id := config.id
    name := config.name
    profile := config.profile
    enabled := config.enabled
    tickRate := config.tickRate.getD defaultTickRate
    task := none
    breakpoints := ∅
    currentLine := none
    history := []
    historyCapacity
    logs := []
    lastCycle := none }

def program? (c : Controller) : Option Program := c.task.map Task.program

def scope? (c : Controller) : Option Scope := c.task.map Task.scope

def execution? (c : Controller) : Option Execution := c.task.bind Task.execution

/-- Whether a cycle is in progress. -/
def executing (c : Controller) : Bool := c.execution?.isSome

/-- Drops the cycle in progress. -/
def reset (c : Controller) : Controller :=
  { c with task := c.task.map fun t => { t with execution := none }, currentLine := none }

/-- The program and the first scope of a text. -/
def prepare (source : String) (now : Millis) : Except LoadError (Program × Scope) :=
  match compile source with
  | .error e => .error (.rejected e)
  | .ok program =>
    match Scope.ofProgram program now with
    | .error e => .error (.initializer e)
    | .ok scope => .ok (program, scope)

/-- Puts a program in the place of the present one. -/
def install (c : Controller) (program : Program) (scope : Scope) : Controller :=
  { c with
    task := some ⟨program, scope, none⟩
    breakpoints := c.breakpoints.mapValues fun _ b => b.reread program
    currentLine := none
    history := [] }

/-- Installs the program of a text. -/
def load (c : Controller) (source : String) (now : Millis) : Except LoadError Controller :=
  (prepare source now).map fun (program, scope) => c.install program scope

/-- Whether a cycle is in progress or the time for the next one has come. -/
def due (c : Controller) (now : Millis) : Bool :=
  c.executing || c.lastCycle.all fun t => c.tickRate ≤ Millis.minus now t

/-- Notes that a statement on a line has run. -/
def record (c : Controller) (line : UInt32) : Controller :=
  { c with currentLine := some line, history := remember c.historyCapacity c.history line }

/-- Sets a breakpoint; its line keeps its count. -/
def setBreakpoint (c : Controller) (line : UInt32) (enabled : Bool) (condition : Option String)
    (hitCount : Option UInt32) : Controller :=
  let condition := meaningful condition
  let hits := ((c.breakpoints.get? line).map Breakpoint.hits).getD 0
  let b : Breakpoint := ⟨enabled, condition, hitCount, hits, Breakpoint.compileFor c.program? condition⟩
  { c with breakpoints := c.breakpoints.insert line b }

end Controller
end Switchyard.Engine
