import Switchyard.Scalar
import Switchyard.Text

/-!
# Syntax of device programs

A program declares typed variables and runs a list of statements. Every statement carries the line
it starts on. The `Device` functions are the program's only way to reach the plant.
-/

namespace Switchyard.Script

/-- The types a variable may be declared with. -/
inductive TypeName where
  | bool
  | int
  | real
  | string
  | time
  deriving DecidableEq, Repr

namespace TypeName

def label : TypeName → String
  | bool => "BOOL"
  | int => "INT"
  | real => "REAL"
  | string => "STRING"
  | time => "TIME"

/-- The type a keyword stands for, in any letter case; all integer widths are one type. -/
def ofName? (name : String) : Option TypeName :=
  match Text.upper name with
  | "BOOL" => some bool
  | "INT" | "SINT" | "DINT" | "LINT" | "UINT" | "UDINT" | "WORD" | "DWORD" => some int
  | "REAL" | "LREAL" => some real
  | "STRING" => some string
  | "TIME" => some time
  | _ => none

def isInteger : TypeName → Bool
  | int | time => true
  | _ => false

/-- What a variable holds before its initializer has run. -/
def initial : TypeName → Scalar
  | bool => .bool false
  | int | time => .int 0
  | real => .real 0.0
  | string => .text ""

end TypeName

inductive UnaryOp where
  | neg
  | not
  deriving DecidableEq, Repr

def UnaryOp.sign : UnaryOp → String
  | neg => "-"
  | not => "NOT"

inductive BinaryOp where
  | or | and
  | eq | ne
  | lt | le | gt | ge
  | add | sub
  | mul | div | mod
  deriving DecidableEq, Repr

def BinaryOp.sign : BinaryOp → String
  | or => "OR"
  | and => "AND"
  | eq => "="
  | ne => "<>"
  | lt => "<"
  | le => "<="
  | gt => ">"
  | ge => ">="
  | add => "+"
  | sub => "-"
  | mul => "*"
  | div => "/"
  | mod => "MOD"

/-- The functions on numbers. -/
inductive Builtin where
  | sqrt
  | abs
  | trunc
  | toInt
  | mod
  deriving DecidableEq, Repr

namespace Builtin

def label : Builtin → String
  | sqrt => "SQRT"
  | abs => "ABS"
  | trunc => "TRUNC"
  | toInt => "TO_INT"
  | mod => "MOD"

def ofName? (name : String) : Option Builtin :=
  match Text.upper name with
  | "SQRT" => some sqrt
  | "ABS" => some abs
  | "TRUNC" => some trunc
  | "TO_INT" => some toInt
  | "MOD" => some mod
  | _ => none

def arity : Builtin → Nat
  | mod => 2
  | _ => 1

end Builtin

/-- The functions of the device. -/
inductive DeviceOp where
  | readInput
  | readRegister
  | writeCoil
  | writeRegister
  | getDA
  | setDA
  | log
  deriving DecidableEq, Repr

namespace DeviceOp

def label : DeviceOp → String
  | readInput => "Device.ReadInput"
  | readRegister => "Device.ReadRegister"
  | writeCoil => "Device.WriteCoil"
  | writeRegister => "Device.WriteRegister"
  | getDA => "Device.GetDA"
  | setDA => "Device.SetDA"
  | log => "Device.Log"

/-- The function a member of `Device` names, in any letter case. -/
def ofName? (name : String) : Option DeviceOp :=
  match Text.upper name with
  | "READINPUT" => some readInput
  | "READREGISTER" => some readRegister
  | "WRITECOIL" => some writeCoil
  | "WRITEREGISTER" => some writeRegister
  | "GETDA" => some getDA
  | "SETDA" => some setDA
  | "LOG" => some log
  | _ => none

def arity : DeviceOp → Nat
  | readInput | readRegister | getDA => 1
  | writeCoil | writeRegister | setDA | log => 2

/-- Whether a call may stand inside an expression. -/
def hasResult : DeviceOp → Bool
  | readInput | readRegister | getDA => true
  | _ => false

end DeviceOp

/-- Expressions. Variables are named by their upper-case key. -/
inductive Expr where
  | literal (value : Scalar)
  | var (key : String)
  | stepTime (key : String)
  | unary (op : UnaryOp) (operand : Expr)
  | binary (op : BinaryOp) (lhs rhs : Expr)
  | builtin (func : Builtin) (args : List Expr)
  | device (func : DeviceOp) (args : List Expr)
  deriving Inhabited

namespace Expr

mutual

/-- Whether evaluation would reach the device. -/
def usesDevice : Expr → Bool
  | literal _ | var _ | stepTime _ => false
  | unary _ e => e.usesDevice
  | binary _ l r => l.usesDevice || r.usesDevice
  | builtin _ args => anyCallsDevice args
  | device _ _ => true

def anyCallsDevice : List Expr → Bool
  | [] => false
  | e :: es => e.usesDevice || anyCallsDevice es

end

mutual

/-- Height of the tree; a leaf has height 1. -/
def depth : Expr → Nat
  | literal _ | var _ | stepTime _ => 1
  | unary _ e => 1 + e.depth
  | binary _ l r => 1 + max l.depth r.depth
  | builtin _ args | device _ args => 1 + maxDepth args

def maxDepth : List Expr → Nat
  | [] => 0
  | e :: es => max e.depth (maxDepth es)

end

end Expr

mutual

/-- A statement with the line it starts on. -/
inductive Stmt where
  | assign (line : UInt32) (target : String) (value : Expr)
  | call (line : UInt32) (func : DeviceOp) (args : List Expr)
  | choose (line : UInt32) (arms : Arms)
  | loop (line : UInt32) (cond : Expr) (body : List Stmt)

/-- The alternatives of an `IF`, tried in order. -/
inductive Arms where
  | none
  | otherwise (body : List Stmt)
  | arm (cond : Expr) (body : List Stmt) (rest : Arms)

end

instance : Inhabited Stmt := ⟨.choose 0 .none⟩

/-- The alternatives with a condition, in order. -/
def Arms.branches : Arms → List (Expr × List Stmt)
  | arm cond body rest => (cond, body) :: rest.branches
  | _ => []

/-- The alternative without a condition. -/
def Arms.last? : Arms → Option (List Stmt)
  | arm _ _ rest => rest.last?
  | otherwise body => some body
  | none => Option.none

def Stmt.line : Stmt → UInt32
  | assign line _ _ | call line _ _ | choose line _ | loop line _ _ => line

/-- A declared variable. -/
structure Declaration where
  /-- The name as written. -/
  name : String
  /-- The name in upper case, by which expressions refer to the variable. -/
  key : String
  type : TypeName
  init : Option Expr
  line : UInt32

/-- Initialized integers named `STATE_…` stand for a value of `STATE` and have a `stepTime`. -/
def Declaration.isStateName (d : Declaration) : Bool :=
  d.key.startsWith "STATE_" && d.type.isInteger && d.init.isSome

/-- A compiled program: its text, its variables in order of declaration and its statements. -/
structure Program where
  source : String
  vars : List Declaration
  body : List Stmt

/-- The declaration a key belongs to. -/
def declared? (vars : List Declaration) (key : String) : Option Declaration :=
  vars.find? fun d => d.key == key

/-- The declaration of a name in any letter case. -/
def Program.var? (p : Program) (name : String) : Option Declaration := declared? p.vars (Text.upper name)

end Switchyard.Script
