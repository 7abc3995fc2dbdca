import Switchyard.Scalar

/-!
# JSON values

A `Json` value keeps the members of its objects as written: in order and with repeated names.
Numbers are integers of the signed or unsigned 64-bit range, or binary64 numbers.

* `settled`: members sorted by name, the last of several with one name kept.
* `toScalar?`, `toScalar`: the scalar a value stands for; lists and objects stand for none.
-/

namespace Switchyard

inductive Json where
  | null
  | bool (b : Bool)
  | int (n : Int)
  | real (x : Float)
  | string (s : String)
  | array (items : List Json)
  | object (members : List (String × Json))
  deriving Inhabited, BEq

namespace Json

/-- Inserts a member into members sorted by name, replacing one of the same name. -/
def insertMember (name : String) (value : Json) : List (String × Json) → List (String × Json)
  | [] => [(name, value)]
  | (n, v) :: rest =>
    if name < n then (name, value) :: (n, v) :: rest
    else if name = n then (name, value) :: rest
    else (n, v) :: insertMember name value rest

mutual

/-- The value with the members of all its objects sorted by name; of several members with one name
the last one counts. -/
def settled : Json → Json
  | array items => array (settledItems items)
  | object members => object (settledMembers members [])
  | v => v

def settledItems : List Json → List Json
  | [] => []
  | v :: rest => v.settled :: settledItems rest

def settledMembers : List (String × Json) → List (String × Json) → List (String × Json)
  | [], done => done
  | (name, v) :: rest, done => settledMembers rest (insertMember name v.settled done)

end

mutual

/-- How deep values are nested: one more than the deepest part. -/
def depth : Json → Nat
  | array items => depthOfItems items + 1
  | object members => depthOfMembers members + 1
  | _ => 1

def depthOfItems : List Json → Nat
  | [] => 0
  | v :: rest => max v.depth (depthOfItems rest)

def depthOfMembers : List (String × Json) → Nat
  | [] => 0
  | (_, v) :: rest => max v.depth (depthOfMembers rest)

end

/-- The number of an integer outside the signed 64-bit range. -/
def wideInteger (n : Int) : Float := Float.ofInt n

/-- The scalar of a value that is no list and no object. Integers above the signed range become
reals. -/
def toScalar? : Json → Option Scalar
  | null => some .null
  | bool b => some (.bool b)
  | int n => some (if n ≤ Int64.maxValue.toInt then .int (Int64.ofInt n) else .real (wideInteger n))
  | real x => some (.real x)
  | string s => some (.text s)
  | array _ | object _ => none

/-- The scalar of a value; lists and objects count as `null`. -/
def toScalar (v : Json) : Scalar := v.toScalar?.getD .null

/-- The JSON value of a scalar. NaN and the infinities become `null`. -/
def ofScalar : Scalar → Json
  | .null => null
  | .bool b => bool b
  | .int n => int n.toInt
  | .real x => if Binary64.isFinite x then real x else null
  | .text s => string s

end Json
end Switchyard
