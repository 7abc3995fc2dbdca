import Switchyard.Script.Eval
import Switchyard.Text

/-!
# Breakpoints

A breakpoint counts how often its line is reached and says whether to pause there: it has to be
enabled, its condition, if it has one, has to be true, and its count, if it has one, has to be
reached.
-/

namespace Switchyard.Engine

open Script

structure Breakpoint where
  enabled : Bool
  /-- The text of the condition. -/
  condition : Option String
  /-- Pauses only from this many hits on. -/
  hitCount : Option UInt32
  /-- How often the line was reached, whether or not it paused. -/
  hits : UInt32
  /-- The condition as compiled for the controller's program. -/
  compiled : Option Expr

namespace Breakpoint

/-- The compiled form of a condition: none without a condition, without a program or if the text is
rejected. -/
def compileFor (program : Option Program) (condition : Option String) : Option Expr :=
  match condition, program with
  | some text, some program => (parseCondition program text).toOption
  | _, _ => none

/-- Compiles the condition for a new program. -/
def reread (b : Breakpoint) (program : Program) : Breakpoint :=
  { b with compiled := compileFor (some program) b.condition }

/-- Counting stops at the largest count. -/
def nextHits (n : UInt32) : UInt32 := if n + 1 = 0 then n else n + 1

/-- Whether the condition holds; one that was rejected or fails does not. -/
def holds (b : Breakpoint) (scope : Scope) (now : Millis) : Bool :=
  match b.condition, b.compiled with
  | none, _ => true
  | some _, none => false
  | some _, some e =>
    match evaluateDetached scope now e with
    | .ok v => v == .bool true
    | .error _ => false

/-- Counts a hit. -/
def count (b : Breakpoint) : Breakpoint := { b with hits := nextHits b.hits }

/-- Whether to pause, after the hit was counted. -/
def pauses (b : Breakpoint) (scope : Scope) (now : Millis) : Bool :=
  b.enabled && b.holds scope now && b.hitCount.all (· ≤ b.hits)

end Breakpoint

/-- A condition that is not blank. -/
def meaningful (condition : Option String) : Option String :=
  condition.filter fun text => !text.toList.all Text.isBlank

end Switchyard.Engine
