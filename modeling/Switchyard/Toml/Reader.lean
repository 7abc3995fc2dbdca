import Switchyard.Bytes
import Switchyard.Decimal.Notation
import Switchyard.Toml.DateTime
import Switchyard.Toml.Table

/-!
# Reading TOML

`parse?` reads a document as the object of its top-level table. Integers have 64 bits, reals are the
nearest binary64 numbers, and a real that is too large is an error.
-/

namespace Switchyard.Toml

open Json

/-- The deepest nesting of lists and inline tables, and the most keys that lead to one key. -/
def nestingLimit : Nat := 79

/-- Reads something off the front of a text. -/
abbrev Read (α : Type) := List Char → Option (α × List Char)

def isSpace (c : Char) : Bool := c == ' ' || c == '\t'

def skipSpace (cs : List Char) : List Char := cs.dropWhile isSpace

/-- Control characters have no place in a document, the tab and line ends apart. -/
def isControl (c : Char) : Bool := (c.toNat < 32 && c != '\t') || c.toNat == 127

/-- The text after a line end. -/
def lineEnd? : List Char → Option (List Char)
  | '\n' :: rest => some rest
  | '\r' :: '\n' :: rest => some rest
  | _ => none

def skipComment : List Char → List Char
  | '#' :: rest => rest.dropWhile fun c => !isControl c
  | cs => cs

/-- The text after the rest of a line that holds nothing more. -/
def endLine? (cs : List Char) : Option (List Char) :=
  match skipComment (skipSpace cs) with
  | [] => some []
  | cs => lineEnd? cs

/-- Skips white space, comments and line ends. -/
def skipLines (cs : List Char) : List Char :=
  let rest := skipComment (skipSpace cs)
  match lineEnd? rest with
  | some next => if next.length < cs.length then skipLines next else rest
  | none => rest
  termination_by cs.length

/-- The character with a number of so many hexadecimal digits. -/
def codePoint? (digits : Nat) (cs : List Char) : Option (Char × List Char) := do
  let front := cs.take digits
  if front.length < digits then none
  let values ← front.mapM Bytes.hexDigit?
  let n := values.foldl (fun n d => 16 * n + d) 0
  if n.isValidChar then return (Char.ofNat n, cs.drop digits) else none

/-- The character of an escape, after the backslash. -/
def escape : List Char → Option (Char × List Char)
  | '"' :: rest => some ('"', rest)
  | '\\' :: rest => some ('\\', rest)
  | 'b' :: rest => some ('\x08', rest)
  | 'f' :: rest => some ('\x0c', rest)
  | 'n' :: rest => some ('\n', rest)
  | 'r' :: rest => some ('\r', rest)
  | 't' :: rest => some ('\t', rest)
  | 'u' :: rest => codePoint? 4 rest
  | 'U' :: rest => codePoint? 8 rest
  | _ => none

/-- The characters of a text up to its closing quote; `done` holds those read so far, reversed. -/
def quotedFrom (done : List Char) : List Char → Option (List Char × List Char)
  | [] => none
  | '"' :: rest => some (done.reverse, rest)
  | '\\' :: rest =>
    match escape rest with
    | none => none
    | some (c, after) => if after.length ≤ rest.length then quotedFrom (c :: done) after else none
  | c :: rest => if isControl c then none else quotedFrom (c :: done) rest
  termination_by cs => cs.length
  decreasing_by all_goals simp only [List.length_cons]; omega

/-- The characters of a literal text up to its closing quote. -/
def literal (cs : List Char) : Option (List Char × List Char) :=
  let front := cs.takeWhile fun c => c != '\'' && !isControl c
  match cs.drop front.length with
  | '\'' :: rest => some (front, rest)
  | _ => none

/-- The end of a text over several lines, at a run of its quotes: three of them close it, and up to
two before those belong to it. -/
def closing? (quote : Char) (cs : List Char) : Option (List Char × List Char) :=
  let run := (cs.takeWhile (· == quote)).length
  if run < 3 then none
  else
    let kept := min (run - 3) 2
    some (List.replicate kept quote, cs.drop (kept + 3))

/-- Skips white space and line ends. -/
def skipBlankLines (cs : List Char) : List Char :=
  let rest := skipSpace cs
  match lineEnd? rest with
  | some next => if next.length < cs.length then skipBlankLines next else rest
  | none => rest
  termination_by cs.length

/-- The text after a backslash at the end of a line: it goes on where the next line that is not blank
starts. -/
def continued? (cs : List Char) : Option (List Char) := (lineEnd? (skipSpace cs)).map skipBlankLines

/-- The characters of a text over several lines, with escapes or as they stand. -/
def linesFrom (quote : Char) (escapes : Bool) (done : List Char) (cs : List Char) :
    Option (List Char × List Char) :=
  match closing? quote cs with
  | some (last, rest) => some (done.reverse ++ last, rest)
  | none =>
    match cs with
    | [] => none
    | c :: rest =>
      if escapes && c == '\\' then
        match continued? rest with
        | some after => if after.length ≤ rest.length then linesFrom quote escapes done after else none
        | none =>
          match escape rest with
          | none => none
          | some (c, after) => if after.length ≤ rest.length then linesFrom quote escapes (c :: done) after else none
      else
        match lineEnd? (c :: rest) with
        | some after => if after.length ≤ rest.length then linesFrom quote escapes ('\n' :: done) after else none
        | none => if isControl c then none else linesFrom quote escapes (c :: done) rest
  termination_by cs.length
  decreasing_by all_goals simp only [List.length_cons]; omega

/-- A text over several lines, after its opening quotes; a line end right behind them is dropped. -/
def severalLines (quote : Char) (escapes : Bool) (cs : List Char) : Option (List Char × List Char) :=
  linesFrom quote escapes [] ((lineEnd? cs).getD cs)

/-- A text with its quotes. -/
def text? (cs : List Char) : Option (String × List Char) :=
  (match cs with
  | '"' :: '"' :: '"' :: rest => severalLines '"' true rest
  | '\'' :: '\'' :: '\'' :: rest => severalLines '\'' false rest
  | '"' :: rest => quotedFrom [] rest
  | '\'' :: rest => literal rest
  | _ => none).map fun (s, rest) => (String.ofList s, rest)

def isBareKeyChar (c : Char) : Bool := c.isAlphanum || c == '_' || c == '-'

/-- A key without points: a quoted text on one line, or a bare word. -/
def simpleKey? : List Char → Option (String × List Char)
  | '"' :: rest => (quotedFrom [] rest).map fun (s, rest) => (String.ofList s, rest)
  | '\'' :: rest => (literal rest).map fun (s, rest) => (String.ofList s, rest)
  | cs =>
    match cs.takeWhile isBareKeyChar with
    | [] => none
    | word => some (String.ofList word, cs.dropWhile isBareKeyChar)

/-- A key: the keys that lead to its table, the key in it, and the text that follows. -/
def key? (path : List String) (cs : List Char) : Option ((List String × String) × List Char) :=
  match simpleKey? cs with
  | none => none
  | some (key, after) =>
    match skipSpace after with
    | '.' :: rest =>
      let rest := skipSpace rest
      if rest.length < cs.length then key? (path ++ [key]) rest else none
    | _ => if path.length < nestingLimit then some ((path, key), after) else none
  termination_by cs.length

/-- Digits, with single underscores between them, which are dropped. -/
def digits? (isDigit : Char → Bool) : List Char → Option (List Char)
  | [] => none
  | [c] => if isDigit c then some [c] else none
  | c :: '_' :: rest => if isDigit c then (digits? isDigit rest).map (c :: ·) else none
  | c :: rest => if isDigit c then (digits? isDigit rest).map (c :: ·) else none

/-- Decimal digits without a leading zero. -/
def wholeDigits? (cs : List Char) : Option (List Char) :=
  (digits? Char.isDigit cs).filter fun ds => ds.length == 1 || ds.head? != some '0'

/-- The value of a digit in some base up to 16. -/
def digitIn? (base : Nat) (c : Char) : Option Nat := (Bytes.hexDigit? c).filter fun d => d < base

/-- A number in a base that is not ten. -/
def based? (base : Nat) (cs : List Char) : Option Int := do
  let digits ← digits? (fun c => (digitIn? base c).isSome) cs
  return ((digits.filterMap (digitIn? base)).foldl (fun n d => base * n + d) 0 : Nat)

/-- A sign, if there is one, and what follows it. -/
def sign (cs : List Char) : Bool × List Char :=
  match cs with
  | '-' :: rest => (true, rest)
  | '+' :: rest => (false, rest)
  | rest => (false, rest)

def signed (negative : Bool) (n : Nat) : Int := if negative then -n else n

/-- An integer as written. -/
def integer? (cs : List Char) : Option Int :=
  match cs with
  | '0' :: 'x' :: rest => based? 16 rest
  | '0' :: 'o' :: rest => based? 8 rest
  | '0' :: 'b' :: rest => based? 2 rest
  | cs =>
    let (negative, rest) := sign cs
    (wholeDigits? rest).map fun ds => signed negative (Decimal.digitsValue ds)

def isExponentMark (c : Char) : Bool := c == 'e' || c == 'E'

/-- An exponent with its mark, which may be missing. -/
def exponent? : List Char → Option Int
  | [] => some 0
  | _ :: rest =>
    let (negative, rest) := sign rest
    (digits? Char.isDigit rest).map fun ds => signed negative (Decimal.digitsValue ds)

/-- The size of a real: digits with a point, an exponent, or both. -/
def magnitude? (cs : List Char) : Option Float := do
  let mantissa := cs.takeWhile fun c => !isExponentMark c
  let whole := mantissa.takeWhile (· != '.')
  let ds ← wholeDigits? whole
  let decimals ← match mantissa.drop whole.length with
    | [] => some []
    | _ :: rest => digits? Char.isDigit rest
  let exp ← exponent? (cs.drop mantissa.length)
  return Decimal.toFloat (Decimal.digitsValue (ds ++ decimals)) (exp - decimals.length)

/-- A real. -/
def real? (cs : List Char) : Option Float :=
  let (negative, rest) := sign cs
  let x := if rest = "inf".toList then some Binary64.infinity
    else if rest = "nan".toList then some (0.0 / 0.0)
    else (magnitude? rest).filter fun x => negative || Binary64.isFinite x
  x.map fun x => if negative then -x else x

def isWordChar (c : Char) : Bool := c.isAlphanum || c == '_' || c == '+' || c == '-' || c == '.'

/-- The value of a word without quotes. -/
def word? (cs : List Char) : Option Json :=
  if cs = "true".toList then some (bool true)
  else if cs = "false".toList then some (bool false)
  else
    match integer? cs with
    | some n => if Int64.minValue.toInt ≤ n ∧ n ≤ Int64.maxValue.toInt then some (int n) else none
    | none => (real? cs).map real

/-- The items of a list up to its end, `done` being those read so far, reversed. The last one may be
followed by a comma. -/
def itemsFrom (item : Read Json) (done : List Json) (cs : List Char) : Option (List Json × List Char) :=
  match item cs with
  | none => none
  | some (v, rest) =>
    match skipLines rest with
    | ',' :: rest =>
      match skipLines rest with
      | ']' :: rest => some ((v :: done).reverse, rest)
      | rest => if rest.length < cs.length then itemsFrom item (v :: done) rest else none
    | ']' :: rest => some ((v :: done).reverse, rest)
    | _ => none
  termination_by cs.length

/-- A list, after its opening bracket. -/
def list (item : Read Json) : Read Json := fun cs =>
  match skipLines cs with
  | ']' :: rest => some (array [], rest)
  | cs => (itemsFrom item [] cs).map fun (items, rest) => (array items, rest)

/-- A key with its value, put into a table. -/
def pair (item : Read Json) (es : Entries) : Read Entries := fun cs =>
  match key? [] cs with
  | none => none
  | some ((path, key), rest) =>
    match skipSpace rest with
    | '=' :: rest =>
      match item (skipSpace rest) with
      | some (v, rest) => (es.define key v path).map fun es => (es, rest)
      | none => none
    | _ => none

/-- The pairs of an inline table up to its end. -/
def pairsFrom (item : Read Json) (es : Entries) (cs : List Char) : Option (Entries × List Char) :=
  match pair item es cs with
  | none => none
  | some (es, rest) =>
    match skipSpace rest with
    | ',' :: rest =>
      let rest := skipSpace rest
      if rest.length < cs.length then pairsFrom item es rest else none
    | '\x7d' :: rest => some (es, rest)
    | _ => none
  termination_by cs.length

/-- An inline table, after its opening brace. -/
def inlineTable (item : Read Json) : Read Json := fun cs =>
  match skipSpace cs with
  | '\x7d' :: rest => some (object [], rest)
  | cs => (pairsFrom item [] cs).map fun (es, rest) => (es.toJson, rest)

/-- A value; `items` and `members` read lists and inline tables. -/
def valueOf (items members : Read Json) : Read Json := fun cs =>
  match cs with
  | '[' :: rest => items rest
  | '\x7b' :: rest => members rest
  | '"' :: _ | '\'' :: _ => (text? cs).map fun (s, rest) => (string s, rest)
  | cs =>
    match DateTime.read cs with
    | some v => some v
    | none => (word? (cs.takeWhile isWordChar)).map fun v => (v, cs.dropWhile isWordChar)

/-- A value with the given number of nesting levels left. -/
def value : Nat → Read Json
  | 0 => valueOf (fun _ => none) (fun _ => none)
  | levels + 1 => valueOf (list (value levels)) (inlineTable (value levels))

/-- A document as far as it was read: its tables, and the keys of the one that is open. -/
structure Draft where
  root : Entries
  current : List String

/-- A header, after its brackets: a table that is opened, and the rest after the closing brackets. -/
def header (change : String → Entries → Option Entries) (close : List Char) (d : Draft) : Read Draft := fun cs =>
  match key? [] (skipSpace cs) with
  | none => none
  | some ((path, key), rest) =>
    let rest := skipSpace rest
    if close.isPrefixOf rest then
      (d.root.within (change key) path).map fun root =>
        ({ root, current := path ++ [key] }, rest.drop close.length)
    else none

/-- A line that is not empty, without its end. -/
def line (d : Draft) : Read Draft := fun cs =>
  match cs with
  | '[' :: '[' :: rest => header Entries.openItem [']', ']'] d rest
  | '[' :: rest => header Entries.openTable [']'] d rest
  | cs =>
    match key? [] cs with
    | none => none
    | some ((path, key), rest) =>
      match skipSpace rest with
      | '=' :: rest =>
        match value nestingLimit (skipSpace rest) with
        | some (v, rest) =>
          (d.root.within (Entries.define key v path) d.current).map fun root => ({ d with root }, rest)
        | none => none
      | _ => none

/-- The lines of a document. -/
def linesOf (d : Draft) (cs : List Char) : Option Draft :=
  match skipLines cs with
  | [] => some d
  | start =>
    match line d start with
    | none => none
    | some (d, rest) =>
      match endLine? rest with
      | none => none
      | some rest => if rest.length < cs.length then linesOf d rest else none
  termination_by cs.length

/-- A byte order mark at the start is passed over. -/
def skipMark : List Char → List Char
  | '\uFEFF' :: rest => rest
  | cs => cs

/-- The table of a document. -/
def parse? (s : String) : Option Json := (linesOf ⟨[], []⟩ (skipMark s.toList)).map fun d => d.root.toJson

end Switchyard.Toml
