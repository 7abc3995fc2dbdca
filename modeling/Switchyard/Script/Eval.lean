import Switchyard.Script.Compile
import Switchyard.Script.Device
import Switchyard.Script.Scope

/-!
# Evaluation of expressions

An expression is evaluated against a scope and a device. Operands are evaluated from left to right;
`AND` and `OR` skip the right one when the left one decides. Integer arithmetic wraps at 64 bits,
and numbers compare as binary64 numbers.
-/

namespace Switchyard.Script

/-- A computation that may change the device and may fail. -/
abbrev Run (σ : Type) := ExceptT RuntimeError (StateM σ)

/-- Fails for a cause, on a line that is not known here. -/
def fault {α : Type} (f : RuntimeFault) : Except RuntimeError α := .error ⟨f, none⟩

def applyUnary : UnaryOp → Scalar → Except RuntimeError Scalar
  | .neg, .int n => .ok (.int (-n))
  | .neg, .real x => .ok (.real (-x))
  | .not, .bool b => .ok (.bool !b)
  | .not, .int n => .ok (.int (~~~n))
  | op, v => fault (.unsupportedOperand op v.kind)

/-- How two values compare: texts by their characters, numbers numerically. `none` when one is NaN;
a fault when the values do not compare at all. -/
def order (op : BinaryOp) (l r : Scalar) : Except RuntimeError (Option Ordering) :=
  match l, r with
  | .text a, .text b => .ok (some (compare a b))
  | l, r =>
    match l.toFloat?, r.toFloat? with
    | some a, some b =>
      .ok (if a < b then some .lt else if a == b then some .eq else if b < a then some .gt else none)
    | _, _ => fault (.unsupportedOperands op l.kind r.kind)

/-- Arithmetic on integers. -/
def intArith (op : BinaryOp) (a b : Int64) : Option (Except RuntimeError Int64) :=
  match op with
  | .add => some (.ok (a + b))
  | .sub => some (.ok (a - b))
  | .mul => some (.ok (a * b))
  | .div => some (if b = 0 then fault .divisionByZero else .ok (a / b))
  | .mod => some (if b = 0 then fault .moduloByZero else .ok (a % b))
  | _ => none

/-- Arithmetic on reals. -/
def realArith (op : BinaryOp) (a b : Float) : Option (Except RuntimeError Float) :=
  match op with
  | .add => some (.ok (a + b))
  | .sub => some (.ok (a - b))
  | .mul => some (.ok (a * b))
  | .div => some (if b == 0.0 then fault .divisionByZero else .ok (a / b))
  | .mod => some (if b == 0.0 then fault .moduloByZero else .ok (Binary64.remainder a b))
  | _ => none

/-- Arithmetic: on two integers as integers, on other numbers as reals. -/
def arith (op : BinaryOp) (l r : Scalar) : Except RuntimeError Scalar :=
  let mismatch := fault (.unsupportedOperands op l.kind r.kind)
  match l, r with
  | .int a, .int b =>
    match intArith op a b with
    | some result => result.map .int
    | none => mismatch
  | l, r =>
    match l.toFloat?, r.toFloat? with
    | some a, some b =>
      match realArith op a b with
      | some result => result.map .real
      | none => mismatch
    | _, _ => mismatch

/-- `AND` and `OR` of two truth values, or of the bits of two integers. -/
def logic (op : BinaryOp) (onBool : Bool → Bool → Bool) (onInt : Int64 → Int64 → Int64) :
    Scalar → Scalar → Except RuntimeError Scalar
  | .bool a, .bool b => .ok (.bool (onBool a b))
  | .int a, .int b => .ok (.int (onInt a b))
  | l, r => fault (.unsupportedOperands op l.kind r.kind)

/-- The truth of a comparison; a comparison with NaN is false. -/
def comparison (op : BinaryOp) (holds : Ordering → Bool) (l r : Scalar) : Except RuntimeError Scalar :=
  (order op l r).map fun o => .bool (o.any holds)

def applyBinary (op : BinaryOp) (l r : Scalar) : Except RuntimeError Scalar :=
  match op with
  | .and => logic .and (· && ·) (· &&& ·) l r
  | .or => logic .or (· || ·) (· ||| ·) l r
  | .eq => .ok (.bool (l.alike r))
  | .ne => .ok (.bool !(l.alike r))
  | .lt => comparison .lt Ordering.isLT l r
  | .le => comparison .le Ordering.isLE l r
  | .gt => comparison .gt Ordering.isGT l r
  | .ge => comparison .ge Ordering.isGE l r
  | op => arith op l r

/-- The operand of a function on numbers. -/
def numberOperand (func : Builtin) (v : Scalar) : Except RuntimeError Float :=
  match v.toFloat? with
  | some x => .ok x
  | none => fault (.notANumber func.label v.kind)

/-- Applies a function on numbers; missing arguments count as `null`. -/
def applyBuiltin (func : Builtin) (args : List Scalar) : Except RuntimeError Scalar :=
  let first := args.headD .null
  match func, first with
  | .mod, v => applyBinary .mod v (args.tail.headD .null)
  | .sqrt, v => do
    let x ← numberOperand .sqrt v
    if x < 0.0 then fault (.negativeRoot x) else return .real x.sqrt
  | .abs, .int n => .ok (.int (if n < 0 then -n else n))
  | .abs, v => return .real (← numberOperand .abs v).abs
  | .trunc, .int n | .toInt, .int n => .ok (.int n)
  | .trunc, v => return .int (Binary64.toInt64Sat (← numberOperand .trunc v))
  | .toInt, .bool b => .ok (.int (if b then 1 else 0))
  | .toInt, v => return .int (Binary64.roundInt64Sat (← numberOperand .toInt v))

/-- A point address: a number whose integer part lies in the 16-bit range. -/
def addressOperand (func : DeviceOp) (v : Scalar) : Except RuntimeError UInt16 :=
  let whole : Option Int := match v with
    | .int n => some n.toInt
    | .real x => if Binary64.isFinite x then some (Binary64.truncate x) else none
    | _ => none
  match whole with
  | some n =>
    if 0 ≤ n ∧ n ≤ 65535 then .ok n.toNat.toUInt16 else fault (.invalidAddress func v)
  | none => fault (.invalidAddress func v)

/-- A register word; negative numbers are stored as their two's complement. -/
def wordOperand (func : DeviceOp) (v : Scalar) : Except RuntimeError UInt16 :=
  let number : Option Int64 := match v with
    | .bool b => some (if b then 1 else 0)
    | .int n => some n
    | .real x => some (Binary64.toInt64Sat x)
    | _ => none
  match number with
  | some n =>
    if -32768 ≤ n.toInt ∧ n.toInt ≤ 65535 then .ok (n.toInt % 65536).toNat.toUInt16
    else fault (.wordOverflow func n)
  | none => fault (.notANumber func.label v.kind)

/-- A coil state: a truth value, or a number that is not zero. -/
def coilOperand (func : DeviceOp) (v : Scalar) : Except RuntimeError Bool :=
  match v with
  | .bool b => .ok b
  | .int _ | .real _ => .ok v.holds
  | v => fault (.notABool func v.kind)

def pathOperand (func : DeviceOp) (v : Scalar) : Except RuntimeError String :=
  match v with
  | .text s => .ok s
  | v => fault (.notAPath func v.kind)

/-- Calls a device function on evaluated arguments. -/
def performOp {σ : Type} (dev : Device σ) (func : DeviceOp) (args : List Scalar) : Run σ Scalar :=
  let first := args.headD .null
  let second := args.tail.headD .null
  match func with
  | .readInput => do
    let a ← addressOperand func first
    return .bool (← modifyGet (dev.readInput a))
  | .readRegister => do
    let a ← addressOperand func first
    return .ofWord (← modifyGet (dev.readRegister a))
  | .writeCoil => do
    let a ← addressOperand func first
    let b ← coilOperand func second
    modify (dev.writeCoil a b)
    return .null
  | .writeRegister => do
    let a ← addressOperand func first
    let w ← wordOperand func second
    modify (dev.writeRegister a w)
    return .null
  | .getDA => do
    let path ← pathOperand func first
    modifyGet (dev.getDA path)
  | .setDA => do
    let path ← pathOperand func first
    modify (dev.setDA path second)
    return .null
  | .log => do
    modify (dev.log (.ofText first.display) second.display)
    return .null

/-- The result of `AND` or `OR` when the left operand decides. -/
def decided : BinaryOp → Scalar → Option Scalar
  | .and, .bool false => some (.bool false)
  | .or, .bool true => some (.bool true)
  | _, _ => none

mutual

/-- The value of an expression. -/
def evaluate {σ : Type} (dev : Device σ) (scope : Scope) : Expr → Run σ Scalar
  | .literal v => return v
  | .var key =>
    match scope.get? key with
    | some v => return v
    | none => throw ⟨.unknownVariable key, none⟩
  | .stepTime key => return .ofMillis ((scope.stepTime? key (dev.now (← get))).getD 0)
  | .unary op e => do applyUnary op (← evaluate dev scope e)
  | .binary op l r => do
    let a ← evaluate dev scope l
    match decided op a with
    | some v => return v
    | none => applyBinary op a (← evaluate dev scope r)
  | .builtin func args => do applyBuiltin func (← evaluateAll dev scope args)
  | .device func args => do performOp dev func (← evaluateAll dev scope args)

/-- The values of expressions, evaluated in order. -/
def evaluateAll {σ : Type} (dev : Device σ) (scope : Scope) : List Expr → Run σ (List Scalar)
  | [] => return []
  | e :: es => do
    let v ← evaluate dev scope e
    return v :: (← evaluateAll dev scope es)

end

/-- The truth value of a condition. -/
def condition {σ : Type} (dev : Device σ) (scope : Scope) (e : Expr) : Run σ Bool := do
  match ← evaluate dev scope e with
  | .bool b => return b
  | v => throw ⟨.conditionNotBool v.kind, none⟩

/-- Evaluates without a device at a given time. -/
def evaluateDetached (scope : Scope) (now : Millis) (e : Expr) : Except RuntimeError Scalar :=
  ((evaluate detached scope e).run now).1

/-- Runs the initializer of a declaration. -/
def Scope.runInitializer (scope : Scope) (now : Millis) (d : Declaration) : Except RuntimeError Scope := do
  let scope ← match d.init with
    | none => .ok scope
    | some e =>
      match (evaluateDetached scope now e).bind (scope.set d.key) with
      | .ok scope => .ok scope
      | .error e => .error (e.atLine d.line)
  return if d.isStateName then scope.startTimer d.key else scope

/-- The scope of a program at its start: initializers run in order of declaration, and the first
value of `STATE` counts as a move to it. -/
def Scope.ofProgram (program : Program) (now : Millis) : Except RuntimeError Scope := do
  let scope ← program.vars.foldlM (fun s d => s.runInitializer now d) (Scope.ofDecls program.vars)
  return scope.followState now

end Switchyard.Script
