import Switchyard.Engine.Noise
import Switchyard.Engine.Turn

/-!
# Engines

An engine runs the controllers of one substation. It is stopped, running or paused; while it is paused,
a single step lets the debug target run one statement.

* `start`, `stop`, `pause`, `resume`, `stepOver`: the run state.
* `addController`, `removeController`, `enable`, `loadProgram`: the controllers.
* `setBreakpoint`, `setTarget`: debugging.
* `tick`: one period. Noise comes first, then publishers, then, while the engine runs, the turns of the
  controllers in the order of their ids, up to the first that pauses or fails.
* `ticks`: several periods on one clock.
-/

namespace Switchyard

namespace Engine

/-- The tunables of an engine. -/
structure Settings where
  tickPeriod : Millis
  /-- The statements a controller may run in one turn. -/
  statementBudget : Nat
  historyCapacity : Nat
  defaultTickRate : Millis
  noiseSeed : Option UInt64
  deriving DecidableEq, Repr

def Settings.standard : Settings := ⟨100, 10000, 500, 100, none⟩

instance : Inhabited Settings := ⟨.standard⟩

inductive RunState where
  | stopped
  | running
  | paused
  deriving DecidableEq, Repr

def RunState.name : RunState → String
  | stopped => "stopped"
  | running => "running"
  | paused => "paused"

/-- Why a management call is refused. -/
inductive Fault where
  | unknownDevice (id : String)
  | rejectedScript (id : String) (cause : LoadError)
  | notRunning
  | notPaused
  | noTarget
  | targetCannotRun
  deriving DecidableEq

def Fault.message : Fault → String
  | unknownDevice id => s!"Unknown device: {id}"
  | rejectedScript id cause => s!"Device {id}: {cause.display}"
  | notRunning => "Invalid engine state: engine is not running"
  | notPaused => "Invalid engine state: engine is not paused"
  | noTarget => "Invalid engine state: no debug target"
  | targetCannotRun => "Invalid engine state: debug target cannot run"

/-- What happened in a tick. -/
structure Report where
  frames : List Goose.Frame
  /-- The operations since the tick before. -/
  updates : List ControlUpdate
  /-- The controller and the line at which it paused. -/
  pausedAt : Option (String × UInt32)
  error : Option String
  deriving DecidableEq

end Engine

structure Engine where
  settings : Engine.Settings
  substation : Substation
  controllers : SortedMap String Engine.Controller
  noises : List Engine.Noise
  run : Engine.RunState
  /-- The controller that the debugger looks at. -/
  target : Option String
  /-- Whether a single step of the target is still to run. -/
  stepPending : Bool
  /-- The error that stopped the engine last. -/
  lastError : Option String

namespace Engine

/-- A stopped engine without controllers. -/
def new (settings : Settings) : Engine := ⟨settings, .blank, ∅, [], .stopped, none, false, none⟩

/-- Adds noise; its generator starts from the seed of the settings, if they have one. -/
def addNoise (e : Engine) (g : Generator) (targets : List NoiseTarget) : Engine :=
  { e with noises := e.noises ++ [⟨targets, g, e.settings.noiseSeed, 0⟩] }

/-- Drops all cycles in progress. -/
def resetAll (e : Engine) : Engine := { e with controllers := e.controllers.mapValues fun _ c => c.reset }

/-- Starts the engine; a stopped one starts all cycles anew. -/
def start (e : Engine) : Engine :=
  let e := if e.run = .stopped then e.resetAll else e
  { e with run := .running, stepPending := false, lastError := none }

def stop (e : Engine) : Engine := { e with run := .stopped, stepPending := false }.resetAll

def pause (e : Engine) : Except Fault Engine :=
  match e.run with
  | .running => .ok { e with run := .paused, stepPending := false }
  | .paused => .ok e
  | .stopped => .error .notRunning

def resume (e : Engine) : Except Fault Engine :=
  match e.run with
  | .paused => .ok { e with run := .running, stepPending := false }
  | .running => .ok e
  | .stopped => .error .notRunning

/-- Whether a controller could run a step. -/
def canRun (e : Engine) (id : String) : Bool :=
  (e.controllers.get? id).any fun c => c.enabled && c.task.isSome

/-- Lets the target of a paused engine run one statement. -/
def stepOver (e : Engine) : Except Fault Engine :=
  if e.run ≠ .paused then .error .notPaused
  else
    match e.target with
    | none => .error .noTarget
    | some id =>
      if e.canRun id then .ok { e with run := .running, stepPending := true } else .error .targetCannotRun

/-- Gives up a pending step: the engine stays paused. -/
def dropStep (e : Engine) : Engine :=
  if e.stepPending then { e with stepPending := false, run := .paused } else e

/-- Adds a controller in the place of any with its id. -/
def addController (e : Engine) (config : ControllerConfig) : Engine :=
  let c := Controller.ofConfig config e.settings.defaultTickRate e.settings.historyCapacity
  let e := if e.target = some config.id then e.dropStep else e
  { e with controllers := e.controllers.insert config.id c }

def removeController (e : Engine) (id : String) : Except Fault Engine :=
  if e.controllers.contains id then
    let e := { e with controllers := e.controllers.erase id }
    .ok (if e.target = some id then { e.dropStep with target := none } else e)
  else .error (.unknownDevice id)

/-- Changes a controller, if there is one. -/
def modifyController (e : Engine) (id : String) (f : Controller → Controller) : Except Fault Engine :=
  match e.controllers.get? id with
  | some c => .ok { e with controllers := e.controllers.insert id (f c) }
  | none => .error (.unknownDevice id)

/-- Enables or disables a controller; disabling drops its cycle. -/
def enable (e : Engine) (id : String) (enabled : Bool) : Except Fault Engine :=
  if enabled then e.modifyController id fun c => { c with enabled := true }
  else
    (e.modifyController id fun c => { c with enabled := false }.reset).map fun e =>
      if e.target = some id then e.dropStep else e

def setTickRate (e : Engine) (id : String) (rate : Millis) : Except Fault Engine :=
  e.modifyController id fun c => { c with tickRate := rate }

/-- Installs the program of a text; a rejected text changes nothing. -/
def loadProgram (e : Engine) (id : String) (source : String) (now : Millis) : Except Fault Engine :=
  match e.controllers.get? id with
  | none => .error (.unknownDevice id)
  | some c =>
    match c.load source now with
    | .ok c => .ok { e with controllers := e.controllers.insert id c }
    | .error cause => .error (.rejectedScript id cause)

def setBreakpoint (e : Engine) (id : String) (line : UInt32) (enabled : Bool) (condition : Option String)
    (hitCount : Option UInt32) : Except Fault Engine :=
  e.modifyController id fun c => c.setBreakpoint line enabled condition hitCount

/-- Removes a breakpoint, and says whether there was one. -/
def removeBreakpoint (e : Engine) (id : String) (line : UInt32) : Except Fault (Bool × Engine) :=
  match e.controllers.get? id with
  | none => .error (.unknownDevice id)
  | some c =>
    let c' := { c with breakpoints := c.breakpoints.erase line }
    .ok (c.breakpoints.contains line, { e with controllers := e.controllers.insert id c' })

def clearBreakpoints (e : Engine) (id : String) : Except Fault Engine :=
  e.modifyController id fun c => { c with breakpoints := ∅ }

/-- Chooses the controller that the debugger looks at. -/
def setTarget (e : Engine) (id : Option String) : Except Fault Engine :=
  match id with
  | some id =>
    if e.controllers.contains id then .ok { e with target := some id, stepPending := false }
    else .error (.unknownDevice id)
  | none => .ok { e with target := none, stepPending := false }

/-- Applies all noises in order. -/
def applyNoises : List Noise → DataModel → DataModel × List Noise
  | [], m => (m, [])
  | n :: ns, m =>
    let (m, n) := n.apply m
    let (m, ns) := applyNoises ns m
    (m, n :: ns)

/-- How the turns of a tick end. -/
inductive Interruption where
  | none
  | pause (id : String) (line : UInt32)
  | error (message : String)
  deriving DecidableEq

/-- Whether the pending step, if any, is that of the given controller. -/
def stepping (e : Engine) (id : String) : Bool := e.stepPending && e.target = some id

/-- Gives a controller its turn if it is enabled and due, or if it is to run a step. -/
def turn (e : Engine) (id : String) (now : Millis) : Interruption × Engine :=
  match e.controllers.get? id with
  | none => (.none, e)
  | some c =>
    if c.enabled && (c.due now || e.stepping id) then
      let (ending, c, substation) := c.turn e.substation e.settings.statementBudget (e.stepping id) now
      let e := { e with controllers := e.controllers.insert id c, substation }
      match ending with
      | .paused line => (.pause id line, { e with run := .paused, stepPending := false, target := some id })
      | .failed err =>
        let message := id ++ ": " ++ err.display
        (.error message, { e.stop with lastError := some message })
      | _ => (.none, e)
    else (.none, e)

/-- Gives controllers their turns until one interrupts the tick. -/
def turns (now : Millis) : List String → Engine → Interruption × Engine
  | [], e => (.none, e)
  | id :: ids, e =>
    match e.turn id now with
    | (.none, e) => turns now ids e
    | interrupted => interrupted

/-- One period of the engine. -/
def tick (e : Engine) (now : Millis) : Report × Engine :=
  let (model, noises) := applyNoises e.noises e.substation.model
  let (frames, substation) := { e.substation with model }.transmit now
  let (updates, substation) := substation.takeUpdates
  let e := { e with noises, substation }
  if e.run = .running then
    match e.turns now e.controllers.keys with
    | (.none, e) => (⟨frames, updates, none, none⟩, e)
    | (.pause id line, e) => (⟨frames, updates, some (id, line), none⟩, e)
    | (.error message, e) => (⟨frames, updates, none, some message⟩, e)
  else (⟨frames, updates, none, none⟩, e)

/-- So many periods, with some time passing after each. -/
def ticks (e : Engine) (clock : Clock) (ms : Millis) : Nat → List Report × Clock × Engine
  | 0 => ([], clock, e)
  | n + 1 =>
    let (report, e) := e.tick clock.now
    let (reports, last) := e.ticks (clock.advance ms) ms n
    (report :: reports, last)

end Engine
end Switchyard
