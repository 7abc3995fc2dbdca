import Switchyard.Script.Parser

/-!
# Compilation

A text is compiled as a whole: it is tokenized, parsed and checked, and the first problem rejects
it. The checks are that variables are declared once, that initializers do not reach the device and
that every variable is declared and has a `stepTime` where one is asked for.
-/

namespace Switchyard.Script

/-- The line on which the tokens end. -/
def lastLine (tokens : List Token) : UInt32 := (tokens.getLast?.map Token.line).getD 1

/-- Checks the declarations in order: no name twice, no initializer that calls the device. -/
def checkDeclarations (seen : List String) : List Declaration → Except CompileError Unit
  | [] => .ok ()
  | d :: ds =>
    if seen.contains d.key then .error ⟨.duplicateVariable d.name, some d.line⟩
    else if d.init.any Expr.usesDevice then .error ⟨.initializerCallsDevice d.name, some d.line⟩
    else checkDeclarations (d.key :: seen) ds

/-- Checks that a variable is declared, and has a `stepTime` if that is what was written. -/
def checkUse (vars : List Declaration) (u : Use) : Except CompileError Unit :=
  match declared? vars u.key with
  | none => .error ⟨.undeclared u.written, some u.line⟩
  | some d =>
    if u.stepTime && !d.isStateName then .error ⟨.noStepTime u.written, some u.line⟩ else .ok ()

/-- Checks variables in the order in which they were seen. -/
def allDeclared (vars : List Declaration) : List Use → Except CompileError Unit
  | [] => .ok ()
  | u :: us =>
    match checkUse vars u with
    | .error e => .error e
    | .ok () => allDeclared vars us

/-- The program of a list of tokens that were read from `source`. -/
def compileTokens (source : String) (tokens : List Token) : Except CompileError Program := do
  let parsed ← itemsFrom (lastLine tokens) ⟨[], []⟩ [] tokens
  checkDeclarations [] parsed.value.vars
  allDeclared parsed.value.vars parsed.uses
  return ⟨source, parsed.value.vars, parsed.value.body⟩

/-- Compiles a text. -/
def compile (source : String) : Except CompileError Program := do
  compileTokens source (← tokenize source)

/-- A fault that belongs to no line. -/
def unplaced (fault : CompileFault) : CompileError := ⟨fault, none⟩

/-- Compiles the condition of a breakpoint against the variables of a program. -/
def parseCondition (program : Program) (text : String) : Except CompileError Expr := do
  let tokens ← tokenize text
  if tokens.isEmpty then throw (unplaced .emptyCondition)
  let parsed ← expr nestingLimit (lastLine tokens) tokens
  if !parsed.rest.isEmpty then throw (unplaced (.unexpectedInCondition (Parser.peek parsed.rest)))
  if parsed.value.usesDevice then throw (unplaced .conditionCallsDevice)
  match allDeclared program.vars parsed.uses with
  | .error e => throw (unplaced e.fault)
  | .ok () => return parsed.value

end Switchyard.Script
