import Switchyard.Text
import Switchyard.Toml.Reader

/-!
# Values of environment variables

The text of a variable is read as the value it looks like: a truth value, a number, a quoted text, a
list or a table. A text that looks like none of these stands for itself.

* `Variable.value`: the value of a text.
* `Variable.keys?`: the place in the configuration that a variable's name stands for.
-/

namespace Switchyard.Configuration.Variable

open Json

/-- Reads something off the front of a text. -/
abbrev Read (α : Type) := List Char → Option (α × List Char)

def isSpace (c : Char) : Bool := c == ' ' || c == '\t' || c == '\n' || c == '\r' || c.toNat == 12

def skipSpace (cs : List Char) : List Char := cs.dropWhile isSpace

/-- Where a word without quotes ends. -/
def isSeparator (c : Char) : Bool := c ∈ [',', '[', ']', '\x7b', '\x7d']

/-- The characters that so many bytes hold. -/
def firstBytes (n : Nat) : List Char → List Char
  | [] => []
  | c :: cs => if c.utf8Size ≤ n then c :: firstBytes (n - c.utf8Size) cs else []

/-- A quoted text, after its opening quote. If there are escapes in it, then of the characters before
the first one only as many bytes are kept as there are characters. -/
def quoted (cs : List Char) : Option (List Char × List Char) :=
  let front := cs.takeWhile fun c => c != '\\' && c != '"'
  (Toml.quotedFrom [] cs).map fun (text, rest) =>
    if cs[front.length]? = some '\\' then (firstBytes front.length front ++ text.drop front.length, rest)
    else (text, rest)

/-- An integer with an optional sign, if it fits 64 bits. -/
def integer? (cs : List Char) : Option Int :=
  let (negative, digits) := Toml.sign cs
  if digits.isEmpty || !digits.all Char.isDigit then none
  else
    let n := Toml.signed negative (Decimal.digitsValue digits)
    if Int64.minValue.toInt ≤ n ∧ n < UInt64.size then some n else none

/-- A number with a point, which may stand at either end of its digits. -/
def decimal? (cs : List Char) : Option Float := do
  let (negative, cs) := Toml.sign cs
  let mantissa := cs.takeWhile fun c => !Toml.isExponentMark c
  let whole := mantissa.takeWhile (· != '.')
  if whole.length = mantissa.length then none
  let decimals := mantissa.drop (whole.length + 1)
  if (whole ++ decimals).isEmpty || !(whole ++ decimals).all Char.isDigit then none
  let exp ← match cs.drop mantissa.length with
    | [] => some 0
    | _ :: rest =>
      let (negative, digits) := Toml.sign rest
      if digits.isEmpty || !digits.all Char.isDigit then none
      else some (Toml.signed negative (Decimal.digitsValue digits))
  let x := Decimal.toFloat (Decimal.digitsValue (whole ++ decimals)) (exp - decimals.length)
  return if negative then -x else x

/-- The value of a word without quotes. -/
def word (cs : List Char) : Json :=
  match decimal? cs with
  | some x => real x
  | none =>
    match integer? cs with
    | some n => int n
    | none => string (String.ofList cs)

/-- The items of a list up to its end. -/
def itemsFrom (item : Read Json) (done : List Json) (cs : List Char) : Option (List Json × List Char) :=
  match cs with
  | ']' :: rest => some (done.reverse, rest)
  | cs =>
    match item cs with
    | none => none
    | some (v, ',' :: rest) => if rest.length < cs.length then itemsFrom item (v :: done) rest else none
    | some (v, ']' :: rest) => some ((v :: done).reverse, rest)
    | some _ => none
  termination_by cs.length

/-- A key with its value. -/
def pair (item : Read Json) : Read (String × Json) := fun cs =>
  let key := match skipSpace cs with
    | '"' :: rest => quoted rest
    | cs =>
      match cs.takeWhile Toml.isBareKeyChar with
      | [] => none
      | s => some (s, cs.dropWhile Toml.isBareKeyChar)
  match key with
  | none => none
  | some (key, rest) =>
    match skipSpace rest with
    | '=' :: rest => (item rest).map fun (v, rest) => ((String.ofList key, v), skipSpace rest)
    | _ => none

/-- The pairs of a table up to its end; of pairs with one key the last counts. -/
def pairsFrom (item : Read Json) (done : List (String × Json)) (cs : List Char) :
    Option (List (String × Json) × List Char) :=
  match cs with
  | '\x7d' :: rest => some (done, rest)
  | cs =>
    match pair item cs with
    | none => none
    | some ((key, v), ',' :: rest) =>
      if rest.length < cs.length then pairsFrom item (insertMember key v done) rest else none
    | some ((key, v), '\x7d' :: rest) => some (insertMember key v done, rest)
    | some _ => none
  termination_by cs.length

/-- A value and the white space around it; `items` and `members` read lists and tables. -/
def valueOf (items members : Read Json) : Read Json := fun cs =>
  let cs := skipSpace cs
  let v :=
    if "true".toList.isPrefixOf cs then some (bool true, cs.drop 4)
    else if "false".toList.isPrefixOf cs then some (bool false, cs.drop 5)
    else
      match cs with
      | '[' :: rest => items rest
      | '\x7b' :: rest => members rest
      | '"' :: rest => (quoted rest).map fun (s, rest) => (string (String.ofList s), rest)
      | '\'' :: c :: '\'' :: rest => some (string (String.ofList [c]), rest)
      | '\'' :: _ => none
      | cs =>
        some (word (Text.trimChars (cs.takeWhile fun c => !isSeparator c)), cs.dropWhile fun c => !isSeparator c)
  v.map fun (v, rest) => (v, skipSpace rest)

/-- A value with the given number of nesting levels left. -/
def nested : Nat → Read Json
  | 0 => valueOf (fun _ => none) (fun _ => none)
  | levels + 1 =>
    valueOf (fun cs => (itemsFrom (nested levels) [] cs).map fun (items, rest) => (array items, rest))
      (fun cs => (pairsFrom (nested levels) [] cs).map fun (members, rest) => (object members, rest))

/-- The value of a text. -/
def value (text : String) : Json :=
  match nested text.length text.toList with
  | some (v, []) => v
  | _ => string text

/-- The mark at the front of the names of variables that count, in any letter case. -/
def mark : String := "GRIDSIM_"

/-- Two underscores in a row, or a point, separate keys; `key` holds the characters of the current
key, reversed. -/
def splitKeys (key : List Char) : List Char → List (List Char)
  | [] => [key.reverse]
  | '_' :: '_' :: cs => key.reverse :: splitKeys [] cs
  | '.' :: cs => key.reverse :: splitKeys [] cs
  | c :: cs => splitKeys (c :: key) cs

/-- The keys that a variable stands for, in lower case; a name with an empty key stands for none. -/
def keys? (name : String) : Option (List String) :=
  let cs := (Text.trim name).toList.map Char.toLower
  if (mark.toList.map Char.toLower).isPrefixOf cs then
    let keys := splitKeys [] (Text.trimChars (cs.drop mark.length))
    if keys.any List.isEmpty then none else some (keys.map String.ofList)
  else none

/-- The usual name of the variable for a list of keys. -/
def name (keys : List String) : String :=
  String.ofList (mark.toList ++ (String.intercalate "__" keys).toList.map Char.toUpper)

example : keys? (name ["engine", "tick_period_ms"]) = some ["engine", "tick_period_ms"] := by cbv

end Switchyard.Configuration.Variable
