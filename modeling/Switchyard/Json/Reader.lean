import Switchyard.Bytes
import Switchyard.Decimal.Notation
import Switchyard.Json.Basic

/-!
# Reading JSON

`parse?` reads a text as one value, which may be surrounded by white space; `whole?` does so with a
reader of its own for the value.

Reals are read with a 64-bit significand: once the next digit no longer fits, further digits are
dropped, and the power of ten is applied with one multiplication or with a few divisions. The result
can differ from the nearest binary64 number in its last bit. A real that is too large is an error.

Lists and objects may be nested `nestingLimit` deep. `value` recurses on the levels that are left, and
the loops over items and members on the characters that are left.
-/

namespace Switchyard.Json

/-- The deepest nesting of lists and objects. -/
def nestingLimit : Nat := 127

/-- Reads something off the front of a text. -/
abbrev Read (α : Type) := List Char → Option (α × List Char)

def isSpace (c : Char) : Bool := c == ' ' || c == '\n' || c == '\t' || c == '\r'

def skipSpace (cs : List Char) : List Char := cs.dropWhile isSpace

/-- `x * 10 ^ exp`, as far as `10 ^ 308` reaches in one step; very negative exponents take several
steps. Nothing is answered when the product is not finite. -/
def scaleBy (x : Float) (exp : Int) (steps : Nat) : Option Float :=
  if 0 ≤ exp then
    if 308 < exp then if x == 0.0 then some x else none
    else
      let y := x * Decimal.toFloat 1 exp
      if Binary64.isFinite y then some y else none
  else if -308 ≤ exp then some (x / Decimal.toFloat 1 (-exp))
  else if x == 0.0 then some x
  else
    match steps with
    | 0 => some 0.0
    | steps + 1 => scaleBy (x / Decimal.toFloat 1 308) (exp + 308) steps

/-- A real from its sign, significand and exponent. A significand of 20 digits is zero after three
divisions by `10 ^ 308`. -/
def realOf (negative : Bool) (significand : Nat) (exp : Int) : Option Float :=
  (scaleBy (Float.ofNat significand) exp 3).map fun x => if negative then -x else x

def maxSignificand : Nat := UInt64.size - 1

/-- Takes digits into a significand as long as it fits, and says how many were taken. -/
def takeDigits (significand count : Nat) : List Char → Nat × Nat × List Char
  | [] => (significand, count, [])
  | c :: cs =>
    if c.isDigit then
      let next := 10 * significand + (c.toNat - '0'.toNat)
      if next ≤ maxSignificand then takeDigits next (count + 1) cs else (significand, count, c :: cs)
    else (significand, count, c :: cs)

/-- The exponent after its mark, and what follows it. -/
def exponentPart (cs : List Char) : Option (Int × List Char) :=
  let (negative, ds) := match cs with
    | '-' :: ds => (true, ds)
    | '+' :: ds => (false, ds)
    | ds => (false, ds)
  match ds.takeWhile Char.isDigit with
  | [] => none
  | digits =>
    let n : Int := Decimal.digitsValue digits
    some (if negative then -n else n, ds.dropWhile Char.isDigit)

/-- Exponents count up to the largest signed 32-bit integer; beyond it, zero stays zero, small
numbers become zero and large ones are an error. -/
def boundedReal (negative : Bool) (significand : Nat) (base exp : Int) : Option Float :=
  if exp.natAbs < Nat.pow 2 31 then realOf negative significand (base + exp)
  else if significand ≠ 0 ∧ 0 < exp then none
  else some (if negative then -0.0 else 0.0)

/-- An exponent, if there is one, and the real it completes. -/
def exponentOrEnd (negative : Bool) (significand : Nat) (base : Int) (cs : List Char) :
    Option (Float × List Char) :=
  match cs with
  | [] => (realOf negative significand base).map (·, [])
  | c :: rest =>
    if c = 'e' ∨ c = 'E' then
      match exponentPart rest with
      | none => none
      | some (exp, rest) => (boundedReal negative significand base exp).map (·, rest)
    else (realOf negative significand base).map (·, c :: rest)

/-- The digits after the point, and the real they complete. There is at least one. -/
def fractionPart (negative : Bool) (significand : Nat) (base : Int) (cs : List Char) :
    Option (Float × List Char) :=
  let (significand', count, rest) := takeDigits significand 0 cs
  if (cs.takeWhile Char.isDigit).isEmpty then none
  else exponentOrEnd negative significand' (base - count) (rest.dropWhile Char.isDigit)

/-- A number, without its sign. -/
def magnitude (negative : Bool) (cs : List Char) : Option (Json × List Char) :=
  let whole := cs.takeWhile Char.isDigit
  if whole.isEmpty || (whole.head? == some '0' && 1 < whole.length) then none
  else
    let (significand, count, _) := takeDigits 0 0 cs
    let base : Int := whole.length - count
    match cs.dropWhile Char.isDigit with
    | '.' :: rest => (fractionPart negative significand base rest).map fun (x, rest) => (real x, rest)
    | rest =>
      if base = 0 ∧ (rest.head? ≠ some 'e' ∧ rest.head? ≠ some 'E') then
        if !negative then some (int significand, rest)
        else if significand = 0 ∨ Nat.pow 2 63 < significand then some (real (-(Float.ofNat significand)), rest)
        else some (int (-(significand : Int)), rest)
      else (exponentOrEnd negative significand base rest).map fun (x, rest) => (real x, rest)

/-- A number with its sign. -/
def number : Read Json
  | '-' :: cs => magnitude true cs
  | cs => magnitude false cs

/-- Four hexadecimal digits. -/
def unit? : List Char → Option (Nat × List Char)
  | a :: b :: c :: d :: rest => do
    let a ← Bytes.hexDigit? a
    let b ← Bytes.hexDigit? b
    let c ← Bytes.hexDigit? c
    let d ← Bytes.hexDigit? d
    return (((a * 16 + b) * 16 + c) * 16 + d, rest)
  | _ => none

/-- The character of an escape `u…`: one unit, or a pair of surrogates. -/
def unicodeEscape (cs : List Char) : Option (Char × List Char) :=
  match unit? cs with
  | none => none
  | some (high, rest) =>
    if 0xDC00 ≤ high ∧ high ≤ 0xDFFF then none
    else if 0xD800 ≤ high ∧ high ≤ 0xDBFF then
      match rest with
      | '\\' :: 'u' :: rest =>
        match unit? rest with
        | some (low, rest) =>
          if 0xDC00 ≤ low ∧ low ≤ 0xDFFF then
            some (Char.ofNat (0x10000 + (high - 0xD800) * 0x400 + (low - 0xDC00)), rest)
          else none
        | none => none
      | _ => none
    else some (Char.ofNat high, rest)

/-- The character of an escape, after the backslash. -/
def escape : List Char → Option (Char × List Char)
  | '"' :: rest => some ('"', rest)
  | '\\' :: rest => some ('\\', rest)
  | '/' :: rest => some ('/', rest)
  | 'b' :: rest => some ('\x08', rest)
  | 'f' :: rest => some ('\x0c', rest)
  | 'n' :: rest => some ('\n', rest)
  | 'r' :: rest => some ('\r', rest)
  | 't' :: rest => some ('\t', rest)
  | 'u' :: rest => unicodeEscape rest
  | _ => none

/-- The characters up to the closing quote; `done` holds those read so far, reversed. -/
def textFrom (done : List Char) : List Char → Option (List Char × List Char)
  | [] => none
  | '"' :: rest => some (done.reverse, rest)
  | '\\' :: rest =>
    match escape rest with
    | none => none
    | some (c, after) => if after.length ≤ rest.length then textFrom (c :: done) after else none
  | c :: rest => if c.toNat < 32 then none else textFrom (c :: done) rest
  termination_by cs => cs.length
  decreasing_by all_goals simp only [List.length_cons]; omega

/-- A text, after its opening quote. -/
def text : Read String := fun cs => (textFrom [] cs).map fun (s, rest) => (String.ofList s, rest)

/-- A word that stands for a value. -/
def word (w : String) (v : Json) : Read Json := fun cs =>
  if w.toList.isPrefixOf cs then some (v, cs.drop w.length) else none

/-- The items of a list up to its end, `done` being those read so far, reversed. -/
def itemsFrom (item : Read Json) (done : List Json) (cs : List Char) : Option (List Json × List Char) :=
  match item cs with
  | none => none
  | some (v, rest) =>
    match skipSpace rest with
    | ',' :: rest =>
      if rest.length < cs.length then itemsFrom item (v :: done) rest else none
    | ']' :: rest => some ((v :: done).reverse, rest)
    | _ => none
  termination_by cs.length

/-- A member of an object; its name decides how its value is read. -/
def member (item : String → Read Json) : Read (String × Json) := fun cs =>
  match skipSpace cs with
  | '"' :: rest =>
    match text rest with
    | none => none
    | some (name, rest) =>
      match skipSpace rest with
      | ':' :: rest => (item name rest).map fun (v, rest) => ((name, v), rest)
      | _ => none
  | _ => none

/-- The members of an object up to its end, `done` being those read so far, reversed. -/
def membersFrom (item : String → Read Json) (done : List (String × Json)) (cs : List Char) :
    Option (List (String × Json) × List Char) :=
  match member item cs with
  | none => none
  | some (m, rest) =>
    match skipSpace rest with
    | ',' :: rest =>
      if rest.length < cs.length then membersFrom item (m :: done) rest else none
    | '\x7d' :: rest => some ((m :: done).reverse, rest)
    | _ => none
  termination_by cs.length

/-- A list, after its opening bracket. -/
def list (item : Read Json) : Read Json := fun cs =>
  match skipSpace cs with
  | ']' :: rest => some (array [], rest)
  | cs => (itemsFrom item [] cs).map fun (items, rest) => (array items, rest)

/-- An object, after its opening brace. -/
def record (item : String → Read Json) : Read Json := fun cs =>
  match skipSpace cs with
  | '\x7d' :: rest => some (object [], rest)
  | cs => (membersFrom item [] cs).map fun (members, rest) => (object members, rest)

/-- A value that starts after white space; `items` and `members` read lists and objects. -/
def valueOf (items members : Read Json) : Read Json := fun cs =>
  match skipSpace cs with
  | '[' :: rest => items rest
  | '\x7b' :: rest => members rest
  | '"' :: rest => (text rest).map fun (s, rest) => (string s, rest)
  | 'n' :: rest => word "null" null ('n' :: rest)
  | 't' :: rest => word "true" (bool true) ('t' :: rest)
  | 'f' :: rest => word "false" (bool false) ('f' :: rest)
  | cs => number cs

/-- A value with the given number of nesting levels left. -/
def value : Nat → Read Json
  | 0 => valueOf (fun _ => none) (fun _ => none)
  | levels + 1 => valueOf (list (value levels)) (record fun _ => value levels)

/-- The value of a whole text. -/
def whole? (read : Read Json) (s : String) : Option Json :=
  match read s.toList with
  | some (v, rest) => if (skipSpace rest).isEmpty then some v else none
  | none => none

def parse? (s : String) : Option Json := whole? (value nestingLimit) s

end Switchyard.Json
