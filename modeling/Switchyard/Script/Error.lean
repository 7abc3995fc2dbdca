import Switchyard.Script.Syntax

/-!
# Errors of device programs

Why a text is no program, and why a statement cannot run. Each cause is a constructor; the wording
is in `CompileFault.message` and `RuntimeFault.message`.
-/

namespace Switchyard.Script

/-- Operators and punctuation. -/
inductive Symbol where
  | assign | colon | semi | comma | dot | lparen | rparen
  | eq | ne | lt | le | gt | ge
  | plus | minus | star | slash
  deriving DecidableEq, Repr

def Symbol.text : Symbol → String
  | assign => ":="
  | colon => ":"
  | semi => ";"
  | comma => ","
  | dot => "."
  | lparen => "("
  | rparen => ")"
  | eq => "="
  | ne => "<>"
  | lt => "<"
  | le => "<="
  | gt => ">"
  | ge => ">="
  | plus => "+"
  | minus => "-"
  | star => "*"
  | slash => "/"

/-- What a token says. -/
inductive TokenContent where
  | ident (word : String)
  | int (n : Int64)
  | real (x : Float)
  | text (s : String)
  | symbol (s : Symbol)
  deriving DecidableEq

/-- A token with the line it starts on. Lines are counted from 1 in 32 bits. -/
structure Token where
  content : TokenContent
  line : UInt32
  deriving DecidableEq

def TokenContent.display : TokenContent → String
  | ident word => word
  | int n => toString n.toInt
  | real x => Decimal.render Decimal.plain x
  | text s => s
  | symbol s => s.text

/-- What stood in place of something expected: a token, or the end of the input. -/
def describe : Option TokenContent → String
  | none => "end of input"
  | some t => "'" ++ t.display ++ "'"

/-- Why a text is rejected. -/
inductive CompileFault where
  | unterminatedComment
  | unterminatedText
  | unexpectedCharacter (c : Char)
  | invalidNumber (text : String)
  | nestedTooDeeply
  | expectedSymbol (s : Symbol) (found : Option TokenContent)
  | expectedKeyword (keyword : String) (found : Option TokenContent)
  | unterminatedVar
  | malformedVar
  | unknownType (name : String)
  | unexpected (found : Option TokenContent)
  | expectedAssignment (name : String)
  | misplacedVar
  | unterminatedIf
  | unterminatedWhile
  | expectedDeviceFunction
  | unknownDeviceFunction (name : String)
  | wrongArity (label : String) (expected actual : Nat)
  | unexpectedEnd
  | unexpectedInExpression (found : Option TokenContent)
  | noValue (func : DeviceOp)
  | unknownFunction (name : String)
  | expectedMember (name : String)
  | unsupportedMember (name member : String)
  | duplicateVariable (name : String)
  | initializerCallsDevice (name : String)
  | undeclared (name : String)
  | noStepTime (name : String)
  | emptyCondition
  | unexpectedInCondition (found : Option TokenContent)
  | conditionCallsDevice
  deriving DecidableEq

def CompileFault.message : CompileFault → String
  | unterminatedComment => "Unterminated comment"
  | unterminatedText => "Unterminated string literal"
  | unexpectedCharacter c => s!"Unexpected character '{c}'"
  | invalidNumber text => s!"Invalid number '{text}'"
  | nestedTooDeeply => "Expression nested too deeply"
  | expectedSymbol s found => s!"Expected '{s.text}' but found {describe found}"
  | expectedKeyword keyword found => s!"Expected {keyword} but found {describe found}"
  | unterminatedVar => "Unterminated VAR block (missing END_VAR)"
  | malformedVar => "Malformed VAR entry"
  | unknownType name => s!"Unknown type '{name}'"
  | unexpected found => s!"Unexpected {describe found}"
  | expectedAssignment name => s!"Expected ':=' after '{name}'"
  | misplacedVar => "VAR blocks are only allowed at top level"
  | unterminatedIf => "Unterminated IF block (missing END_IF)"
  | unterminatedWhile => "Unterminated WHILE block (missing END_WHILE)"
  | expectedDeviceFunction => "Expected a Device function name"
  | unknownDeviceFunction name => s!"Unknown device function 'Device.{name}'"
  | wrongArity label expected actual => s!"{label} expects {expected} argument(s), got {actual}"
  | unexpectedEnd => "Unexpected end of input in expression"
  | unexpectedInExpression found => s!"Unexpected {describe found} in expression"
  | noValue func => s!"{func.label} does not return a value"
  | unknownFunction name => s!"Unknown function '{name}'"
  | expectedMember name => s!"Expected member name after '{name}.'"
  | unsupportedMember name member => s!"Unsupported member access '{name}.{member}'"
  | duplicateVariable name => s!"Duplicate variable '{name}'"
  | initializerCallsDevice name => s!"Initializer for '{name}' must not call Device functions"
  | undeclared name => s!"Undeclared variable '{name}'"
  | noStepTime name => s!"'{name}' has no stepTime; only initialized STATE_ integer constants do"
  | emptyCondition => "Empty condition"
  | unexpectedInCondition found => s!"Unexpected {describe found} in condition"
  | conditionCallsDevice => "Conditions must not call Device functions"

/-- A fault and, where there is one, its line. -/
structure CompileError where
  fault : CompileFault
  line : Option UInt32
  deriving DecidableEq

/-- A message with its line in front. -/
def placed (message : String) : Option UInt32 → String
  | some line => s!"line {line}: {message}"
  | none => message

def CompileError.display (e : CompileError) : String := placed e.fault.message e.line

/-- Why a statement cannot run. -/
inductive RuntimeFault where
  | unknownVariable (key : String)
  | conditionNotBool (actual : Kind)
  | unsupportedOperand (op : UnaryOp) (actual : Kind)
  | unsupportedOperands (op : BinaryOp) (lhs rhs : Kind)
  | divisionByZero
  | moduloByZero
  | negativeRoot (x : Float)
  | notANumber (label : String) (actual : Kind)
  | notABool (func : DeviceOp) (actual : Kind)
  | notAPath (func : DeviceOp) (actual : Kind)
  | invalidAddress (func : DeviceOp) (value : Scalar)
  | wordOverflow (func : DeviceOp) (value : Int64)
  | cannotAssign (actual : Kind) (name : String) (type : TypeName)
  deriving DecidableEq

def RuntimeFault.message : RuntimeFault → String
  | unknownVariable key => s!"Unknown variable '{key}'"
  | conditionNotBool k => s!"Condition must be BOOL, got {k.name}"
  | unsupportedOperand op k => s!"Type mismatch: cannot apply {op.sign} to {k.name}"
  | unsupportedOperands op l r => s!"Type mismatch: {l.name} {op.sign} {r.name}"
  | divisionByZero => "Division by zero"
  | moduloByZero => "Modulo by zero"
  | negativeRoot x => s!"SQRT of negative number {Decimal.render Decimal.plain x}"
  | notANumber label k => s!"Type mismatch: {label} expects a number, got {k.name}"
  | notABool func k => s!"Type mismatch: {func.label} expects BOOL, got {k.name}"
  | notAPath func k => s!"Type mismatch: {func.label} expects a STRING path, got {k.name}"
  | invalidAddress func v => s!"{func.label}: invalid address {v.display}"
  | wordOverflow func n => s!"{func.label}: value {n.toInt} does not fit in a register"
  | cannotAssign k name type => s!"Type mismatch: cannot assign {k.name} to {name} ({type.label})"

/-- A fault and, once known, the line of the statement. -/
structure RuntimeError where
  fault : RuntimeFault
  line : Option UInt32
  deriving DecidableEq

/-- Adds a line unless one is known. -/
def RuntimeError.atLine (e : RuntimeError) (line : UInt32) : RuntimeError :=
  { e with line := e.line <|> some line }

def RuntimeError.display (e : RuntimeError) : String := placed e.fault.message e.line

end Switchyard.Script
