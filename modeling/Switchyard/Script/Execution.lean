import Switchyard.Script.Eval

/-!
# Resumable execution

An `Execution` is a stack of blocks, each with the statements still to run. `step` runs one
statement and suspends on its line:

* an assignment or a call suspends once it has run;
* an `IF` suspends at its header, with the chosen block on the stack;
* a `WHILE` suspends at its header each time its condition is evaluated, and stays in its block
  until the condition is false.

A failed step changes neither the scope nor the place of the execution.
-/

namespace Switchyard.Script

/-- The blocks of a suspended run, innermost first, with the statements left in each. -/
structure Execution where
  frames : List (List Stmt)

namespace Execution

/-- A run of a program from its first statement. -/
def start (program : Program) : Execution := ⟨[program.body]⟩

/-- The number of open blocks. -/
def depth (e : Execution) : Nat := e.frames.length

/-- Closes the blocks that have no statement left. -/
def settle (e : Execution) : Execution := ⟨e.frames.dropWhile List.isEmpty⟩

end Execution

/-- How a step ends. -/
inductive Outcome where
  /-- A statement on the given line has run. -/
  | suspended (line : UInt32)
  /-- No statement was left. -/
  | completed
  deriving DecidableEq, Repr

/-- The block that an `IF` chooses: the first whose condition is true. -/
def chooseArm {σ : Type} (dev : Device σ) (scope : Scope) : Arms → Run σ (Option (List Stmt))
  | .none => return Option.none
  | .otherwise body => return some body
  | .arm cond body rest => do
    if ← condition dev scope cond then return some body else chooseArm dev scope rest

/-- Runs one statement of a block: the scope afterwards, and the blocks that take the place of the
one it stands in, given the statements after it. -/
def runStmt {σ : Type} (dev : Device σ) (scope : Scope) (stmt : Stmt) (after : List Stmt) :
    Run σ (Scope × List (List Stmt)) :=
  match stmt with
  | .assign _ target value => do
    let v ← evaluate dev scope value
    return (← scope.set target v, [after])
  | .call _ func args => do
    let _ ← performOp dev func (← evaluateAll dev scope args)
    return (scope, [after])
  | .choose _ arms => do
    match ← chooseArm dev scope arms with
    | some body => return (scope, [body, after])
    | none => return (scope, [after])
  | .loop _ cond body => do
    if ← condition dev scope cond then return (scope, [body, stmt :: after]) else return (scope, [after])

/-- What a step leaves behind. -/
structure StepResult (σ : Type) where
  outcome : Except RuntimeError Outcome
  execution : Execution
  scope : Scope
  state : σ

/-- Runs the next statement. -/
def Execution.step {σ : Type} (dev : Device σ) (e : Execution) (scope : Scope) (state : σ) : StepResult σ :=
  let e := e.settle
  match e.frames with
  | (stmt :: after) :: outer =>
    match (runStmt dev scope stmt after).run state with
    | (.error err, state) => ⟨.error (err.atLine stmt.line), e, scope, state⟩
    | (.ok (scope, blocks), state) =>
      ⟨.ok (.suspended stmt.line), ⟨blocks ++ outer⟩, scope.followState (dev.now state), state⟩
  | _ => ⟨.ok .completed, e, scope, state⟩

end Switchyard.Script
