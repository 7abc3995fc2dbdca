import Switchyard.Json.Basic

/-!
# Records in JSON

A record is written as an object, whose members may come in any order and may include unknown ones,
or as a list of its fields in their order, of which the last ones may be missing. A word of a fixed
vocabulary is written as a text, or as the name of an only member.

* `Dialect`: how far a kind of document goes beyond that.
* `fields`, `allFields`: the values of a record's fields; a field that is given twice rejects the record.
* `required`, `optional`, `orElse`: what a missing field means.
* `asWord`: the word that a value stands for.
-/

namespace Switchyard.Json

/-- Reads a value of some type. -/
abbrev Decode (α : Type) := Json → Option α

/-- **What a kind of document leaves open** in the forms of records and words. -/
structure Dialect where
  /-- Whether the list of a record may go on after its last field. -/
  surplus : Bool
  /-- What may stand under a word that is the name of a member. -/
  isVoid : Json → Bool

namespace Dialect

/-- Values on their own. -/
def plain : Dialect := ⟨false, fun v => v matches null⟩

/-- What is carried in messages: nothing at all can also be written as an empty object. -/
def carried : Dialect := ⟨false, fun v => v matches null | object []⟩

/-- Documents of tables, which know no `null`. -/
def tables : Dialect := ⟨true, fun v => v matches object [] | array []⟩

end Dialect

/-- The value of a field that may be written under any of the given names; nothing if it is written
more than once. -/
def fieldOf (members : List (String × Json)) (names : List String) : Option (Option Json) :=
  match members.filter fun m => names.contains m.1 with
  | [] => some none
  | [m] => some (some m.2)
  | _ => none

/-- The values of a record's fields, each given by the names it may be written under. -/
def fields (d : Dialect) (names : List (List String)) : Json → Option (List (Option Json))
  | object members => names.mapM (fieldOf members)
  | array items =>
    if d.surplus || items.length ≤ names.length then
      some ((items.map some ++ List.replicate (names.length - items.length) none).take names.length)
    else none
  | _ => none

/-- As `fields`, for a record whose last field has no default: a list has to give all of them. -/
def allFields (d : Dialect) (names : List (List String)) : Json → Option (List (Option Json))
  | array items => if names.length ≤ items.length then fields d names (array items) else none
  | v => fields d names v

section
variable {α : Type}

/-- A field that has to be there. -/
def required (decode : Decode α) (v : Option Json) : Option α := v.bind decode

/-- A field that may be missing or `null`. -/
def optional (decode : Decode α) : Option Json → Option (Option α)
  | none | some null => some none
  | some v => (decode v).map some

/-- A field that stands for a default when it is missing. -/
def orElse (default : α) (decode : Decode α) : Option Json → Option α
  | none => some default
  | some v => decode v

/-- A list of values of one type. -/
def listOf (decode : Decode α) : Decode (List α)
  | array items => items.mapM decode
  | _ => none

end

def asString : Decode String
  | string s => some s
  | _ => none

def asBool : Decode Bool
  | bool b => some b
  | _ => none

/-- An integer from 0 to `max`. -/
def asNat (max : Nat) : Decode Nat
  | int n => if 0 ≤ n ∧ n.toNat ≤ max then some n.toNat else none
  | _ => none

def asUInt8 : Decode UInt8 := fun v => (asNat 255 v).map Nat.toUInt8

def asUInt16 : Decode UInt16 := fun v => (asNat 65535 v).map Nat.toUInt16

def asUInt32 : Decode UInt32 := fun v => (asNat (UInt32.size - 1) v).map Nat.toUInt32

def asUInt64 : Decode UInt64 := fun v => (asNat (UInt64.size - 1) v).map Nat.toUInt64

/-- A number, integers included. -/
def asFloat : Decode Float
  | int n => some (Float.ofInt n)
  | real x => some x
  | _ => none

/-- A word of a fixed vocabulary. -/
def asWord (d : Dialect) : Decode String
  | string s => some s
  | object [(s, v)] => if d.isVoid v then some s else none
  | _ => none

/-- A member that is left out when there is no value. -/
def optionalMember {α : Type} (name : String) (encode : α → Json) : Option α → List (String × Json)
  | none => []
  | some a => [(name, encode a)]

end Switchyard.Json
