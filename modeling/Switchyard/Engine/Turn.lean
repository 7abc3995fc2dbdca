import Switchyard.Engine.Controller
import Switchyard.Station.Substation

/-!
# Turns

In its turn a controller runs statements until its cycle ends, a statement fails, a breakpoint or a
single step pauses it, or its budget of statements is used up. Its device functions reach the profile
of the controller and the attributes of the substation.

* `reach`: the device that a program sees.
* `Progress.run`: the loop over statements.
* `Controller.turn`: a whole turn.
-/

namespace Switchyard.Engine

open Script

/-- What a program can change outside its scope. -/
structure Surroundings where
  substation : Substation
  logs : List LogEntry

/-- The device of a controller at a time. Registers are read from the holding registers first and
from the input registers otherwise; missing points read as 0 or false. -/
def reach (profile : String) (now : Millis) : Device Surroundings where
  now _ := now
  readInput a s := (((s.substation.model.profile profile).discreteInputs.get? a).getD false, s)
  readRegister a s :=
    let p := s.substation.model.profile profile
    (((p.holdingRegisters.get? a).or (p.inputRegisters.get? a)).getD 0, s)
  writeCoil a b s :=
    { s with substation.model := s.substation.model.modifyProfile profile fun p => p.setCoil a b }
  writeRegister a w s :=
    { s with substation.model := s.substation.model.modifyProfile profile fun p => p.setHolding a w }
  getDA path s := (s.substation.model.value path, s)
  setDA path v s := { s with substation := s.substation.writeAttribute path v now }
  log level message s := { s with logs := remember logSize s.logs ⟨level, message⟩ }

/-- How a turn ends. -/
inductive TurnEnd where
  /-- There is no program. -/
  | idle
  /-- The budget was used up within a cycle. -/
  | yielded
  /-- The cycle is complete. -/
  | completed
  | paused (line : UInt32)
  | failed (e : RuntimeError)
  deriving DecidableEq

/-- A cycle under way. -/
structure Progress where
  execution : Execution
  scope : Scope
  controller : Controller
  substation : Substation

namespace Progress

/-- Runs one statement; the outcome, and what it leaves behind. -/
def step (p : Progress) (now : Millis) : Except RuntimeError Outcome × Progress :=
  let r := p.execution.step (reach p.controller.profile now) p.scope ⟨p.substation, p.controller.logs⟩
  (r.outcome, ⟨r.execution, r.scope, { p.controller with logs := r.state.logs }, r.state.substation⟩)

/-- Notes that a line was reached, and says whether a breakpoint pauses there. -/
def arrive (p : Progress) (line : UInt32) (now : Millis) : Bool × Progress :=
  let c := p.controller.record line
  match c.breakpoints.get? line with
  | some b =>
    let b := b.count
    (b.pauses p.scope now, { p with controller := { c with breakpoints := c.breakpoints.insert line b } })
  | none => (false, { p with controller := c })

/-- Runs statements within a budget. When `stepping`, the first one pauses. -/
def run (stepping : Bool) (now : Millis) : Nat → Progress → TurnEnd × Progress
  | 0, p => (.yielded, p)
  | budget + 1, p =>
    match p.step now with
    | (.error e, p) => (.failed e, p)
    | (.ok .completed, p) => (.completed, p)
    | (.ok (.suspended line), p) =>
      let (hit, p) := p.arrive line now
      if hit || stepping then (.paused line, p) else run stepping now budget p

end Progress

/-- The task of a controller after a turn. -/
def Task.after (t : Task) (ending : TurnEnd) (p : Progress) : Task :=
  { t with
    scope := p.scope
    execution := match ending with
      | .completed | .failed _ => none
      | _ => some p.execution }

/-- A turn of a controller. -/
def Controller.turn (c : Controller) (s : Substation) (budget : Nat) (stepping : Bool) (now : Millis) :
    TurnEnd × Controller × Substation :=
  match c.task with
  | none => (.idle, c, s)
  | some t =>
    let e := t.execution.getD (Execution.start t.program)
    let (ending, p) := Progress.run stepping now budget ⟨e, t.scope, c, s⟩
    let lastCycle := if ending = .completed then some now else c.lastCycle
    (ending, { p.controller with task := some (t.after ending p), lastCycle }, p.substation)

end Switchyard.Engine
