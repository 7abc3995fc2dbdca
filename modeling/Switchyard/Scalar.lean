import Switchyard.Decimal.Notation

/-!
# Times and scalars

Times are counted in milliseconds. Every register, coil, data attribute and script variable holds a
`Scalar`: nothing, a truth value, a 64-bit integer, a binary64 number or a text.

* `alike` is the comparison used to detect changes: numbers compare numerically.
* `holds` is how a scalar drives a coil.
* `toRegister` is how a scalar is stored in a 16-bit register.
-/

namespace Switchyard

/-- Milliseconds since some fixed origin. -/
abbrev Millis := UInt64

/-- Addition that stops at the largest time. -/
def Millis.plus (a b : Millis) : Millis := if a + b < a then UInt64.ofNat (UInt64.size - 1) else a + b

/-- Twice a time, at most the largest one. -/
def Millis.double (a : Millis) : Millis := Millis.plus a a

/-- Subtraction that stops at zero. -/
def Millis.minus (a b : Millis) : Millis := if a < b then 0 else a - b

/-- The simulation clock, which the plant runs on. It is moved by hand and wraps at the largest time. -/
structure Clock where
  now : Millis
  deriving DecidableEq, Repr

/-- Lets time pass. -/
def Clock.advance (c : Clock) (ms : Millis) : Clock := ⟨c.now + ms⟩

/-- Moves on to a time; a time in the past changes nothing. -/
def Clock.moveTo (c : Clock) (time : Millis) : Clock := ⟨max c.now time⟩

inductive Scalar where
  | null
  | bool (b : Bool)
  | int (n : Int64)
  | real (x : Float)
  | text (s : String)
  deriving DecidableEq, Inhabited

/-- The five kinds of scalar. -/
inductive Kind where
  | null
  | bool
  | int
  | real
  | string
  deriving DecidableEq, Repr

def Kind.name : Kind → String
  | null => "null"
  | bool => "bool"
  | int => "int"
  | real => "real"
  | string => "string"

namespace Scalar

def kind : Scalar → Kind
  | null => .null
  | bool _ => .bool
  | int _ => .int
  | real _ => .real
  | text _ => .string

def isNumber : Scalar → Bool
  | int _ | real _ => true
  | _ => false

/-- The truth value, of truth values only. -/
def toBool? : Scalar → Option Bool
  | bool b => some b
  | _ => none

/-- The integer, of integers and of whole numbers; the latter are clamped to the 64-bit range. -/
def toInt64? : Scalar → Option Int64
  | int n => some n
  | real x => if Binary64.isWhole x then some (Binary64.toInt64Sat x) else none
  | _ => none

/-- The number, of integers and reals. -/
def toFloat? : Scalar → Option Float
  | int n => some (Binary64.ofInt64 n)
  | real x => some x
  | _ => none

/-- The text, of texts only. -/
def toText? : Scalar → Option String
  | text s => some s
  | _ => none

/-- Numbers are true when not zero, texts when not empty. -/
def holds : Scalar → Bool
  | null => false
  | bool b => b
  | int n => n != 0
  | real x => x != 0.0
  | text s => !s.isEmpty

/-- Comparison for change detection: numbers compare as binary64 numbers, all else structurally.
NaN differs from itself. -/
def alike : Scalar → Scalar → Bool
  | int a, int b => Binary64.ofInt64 a == Binary64.ofInt64 b
  | int a, real y => Binary64.ofInt64 a == y
  | real x, int b => x == Binary64.ofInt64 b
  | real x, real y => x == y
  | a, b => a = b

/-- The text shown to people. -/
def display : Scalar → String
  | null => "null"
  | bool b => if b then "TRUE" else "FALSE"
  | int n => toString n.toInt
  | real x => Decimal.render Decimal.plain x
  | text s => s

/-- Why a scalar does not go into a 16-bit register. -/
inductive RegisterError where
  | notAnInteger (actual : Kind)
  | overflow (n : Int64)
  deriving DecidableEq, Repr

def RegisterError.message : RegisterError → String
  | notAnInteger k => s!"Expected int, got {k.name}"
  | overflow n => s!"Value {n.toInt} does not fit in a 16-bit register"

/-- An integer as a register word, if it fits. -/
def wordOfInt (n : Int64) : Except RegisterError UInt16 :=
  if 0 ≤ n.toInt ∧ n.toInt < 65536 then .ok n.toInt.toNat.toUInt16 else .error (.overflow n)

/-- A scalar as a register word: reals lose their fraction. -/
def toRegister : Scalar → Except RegisterError UInt16
  | bool b => .ok (if b then 1 else 0)
  | int n => wordOfInt n
  | real x => wordOfInt (Binary64.toInt64Sat x)
  | v => .error (.notAnInteger v.kind)

/-- A register word as an integer. -/
def ofWord (w : UInt16) : Scalar := int w.toUInt64.toInt64

/-- A time as an integer; times of `2 ^ 63` and above wrap to negative numbers. -/
def ofMillis (t : Millis) : Scalar := int t.toInt64

end Scalar
end Switchyard
