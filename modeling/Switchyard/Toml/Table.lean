import Switchyard.Json.Basic

/-!
# Tables under construction

A document is built from the top: headers open tables, and each key puts a value into the table that
was opened last. Every table remembers how it came about, since that decides what may still be added
to it.

* `Entries.openTable`, `Entries.openItem`: what a header in single or double brackets does.
* `Entries.define`: what a key with its value does.
* `Entries.toJson`: the finished table.
-/

namespace Switchyard.Toml

/-- How a table came about. -/
inductive Origin where
  /-- By a header of its own. -/
  | header
  /-- By the header of a table inside it. -/
  | implied
  /-- By a dotted key. -/
  | dotted
  deriving DecidableEq, Repr

/-- What a key stands for. -/
inductive Node where
  | value (v : Json)
  | table (origin : Origin) (entries : List (String × Node))
  /-- A list of tables, the one opened last at the end. -/
  | tables (items : List (List (String × Node)))

abbrev Entries := List (String × Node)

namespace Entries

def find? (es : Entries) (key : String) : Option Node := es.lookup key

/-- Gives a key a new meaning. -/
def put (es : Entries) (key : String) (n : Node) : Entries :=
  if (es.find? key).isSome then es.map fun e => if e.1 = key then (key, n) else e else es ++ [(key, n)]

/-- Changes the table that keys lead to, of a list of tables the last one. Missing tables come
about on the way. -/
def within (change : Entries → Option Entries) : List String → Entries → Option Entries
  | [], es => change es
  | key :: path, es =>
    match es.find? key with
    | none => (within change path []).map fun sub => es.put key (.table .implied sub)
    | some (.table origin sub) => (within change path sub).map fun sub => es.put key (.table origin sub)
    | some (.tables items) =>
      (within change path (items.getLast?.getD [])).map fun sub => es.put key (.tables (items.dropLast ++ [sub]))
    | some (.value _) => none

/-- Opens a table. A table can be opened once, and not after it came about by a dotted key. -/
def openTable (key : String) (es : Entries) : Option Entries :=
  match es.find? key with
  | none => some (es.put key (.table .header []))
  | some (.table .implied sub) => some (es.put key (.table .header sub))
  | some _ => none

/-- Opens another table of a list. -/
def openItem (key : String) (es : Entries) : Option Entries :=
  match es.find? key with
  | none => some (es.put key (.tables [[]]))
  | some (.tables items) => some (es.put key (.tables (items ++ [[]])))
  | some _ => none

/-- Puts a value under a key. Keys before it lead through tables without a header; the value ends up
in the table that was opened or in one that came about by a dotted key. -/
def define (key : String) (v : Json) : List String → Entries → Option Entries
  | [], es => if (es.find? key).isSome then none else some (es.put key (.value v))
  | step :: path, es =>
    match es.find? step with
    | none => (define key v path []).map fun sub => es.put step (.table .dotted sub)
    | some (.table .dotted sub) => (define key v path sub).map fun sub => es.put step (.table .dotted sub)
    | some (.table .implied sub) =>
      if path.isEmpty then none
      else (define key v path sub).map fun sub => es.put step (.table .implied sub)
    | some (.tables items) =>
      if path.isEmpty then none
      else
        (define key v path (items.getLast?.getD [])).map fun sub =>
          es.put step (.tables (items.dropLast ++ [sub]))
    | some (.table .header _) | some (.value _) => none

end Entries

mutual

def Node.toJson : Node → Json
  | .value v => v
  | .table _ entries => .object (Entries.membersJson entries)
  | .tables items => .array (Entries.itemsJson items)

def Entries.membersJson : List (String × Node) → List (String × Json)
  | [] => []
  | (key, n) :: rest => (key, n.toJson) :: Entries.membersJson rest

def Entries.itemsJson : List (List (String × Node)) → List Json
  | [] => []
  | es :: rest => .object (Entries.membersJson es) :: Entries.itemsJson rest

end

def Entries.toJson (es : Entries) : Json := .object (membersJson es)

end Switchyard.Toml
