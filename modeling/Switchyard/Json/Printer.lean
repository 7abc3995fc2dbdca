import Switchyard.Json.Basic

/-!
# Written JSON

The compact text of a value: no white space, members in their order, control characters escaped
and all other characters written as they are.
-/

namespace Switchyard.Json

/-- The two lower-case hexadecimal digits of a number below 256. -/
def hexPair (n : Nat) : List Char := [Nat.digitChar (n / 16), Nat.digitChar (n % 16)]

/-- A character inside quotes. -/
def escaped (c : Char) : List Char :=
  match c with
  | '"' => ['\\', '"']
  | '\\' => ['\\', '\\']
  | '\n' => ['\\', 'n']
  | '\r' => ['\\', 'r']
  | '\t' => ['\\', 't']
  | c =>
    if c.toNat = 8 then ['\\', 'b']
    else if c.toNat = 12 then ['\\', 'f']
    else if c.toNat < 32 then '\\' :: 'u' :: '0' :: '0' :: hexPair c.toNat
    else [c]

/-- A text in quotes. -/
def quote (s : String) : List Char := '"' :: (s.toList.flatMap escaped ++ ['"'])

mutual

def chars : Json → List Char
  | null => "null".toList
  | bool b => (if b then "true" else "false").toList
  | int n => (toString n).toList
  | real x => (Decimal.render Decimal.json x).toList
  | string s => quote s
  | array items => '[' :: (itemsChars items ++ [']'])
  | object members => '\x7b' :: (membersChars members ++ ['\x7d'])

def itemsChars : List Json → List Char
  | [] => []
  | [v] => v.chars
  | v :: rest => v.chars ++ ',' :: itemsChars rest

def membersChars : List (String × Json) → List Char
  | [] => []
  | [(name, v)] => quote name ++ ':' :: v.chars
  | (name, v) :: rest => quote name ++ ':' :: (v.chars ++ ',' :: membersChars rest)

end

/-- The compact text of a value. -/
def render (v : Json) : String := String.ofList v.chars

end Switchyard.Json
