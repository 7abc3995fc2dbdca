import Switchyard.Decimal.Notation
import Switchyard.Json.Basic

/-!
# Dates and times

A date, a time of day, or both with or without an offset from universal time, as they stand in a
document. No setting is a moment, so only the form is checked and the text is kept.

* `DateTime.end?`: the text after a date or time.
* `DateTime.read`: a date or time as a value, which is an object that no record has a use for.
-/

namespace Switchyard.Toml.DateTime

/-- The number that so many digits in front stand for, if it is within bounds, and what follows. -/
def digits? (count low high : Nat) (cs : List Char) : Option (Nat × List Char) :=
  let front := cs.take count
  let n := Decimal.digitsValue front
  if front.length = count ∧ front.all Char.isDigit ∧ low ≤ n ∧ n ≤ high then some (n, cs.drop count) else none

def daysIn (year month : Nat) : Nat :=
  if month = 2 then
    if year % 4 = 0 ∧ (year % 100 ≠ 0 ∨ year % 400 = 0) then 29 else 28
  else if month ∈ [4, 6, 9, 11] then 30
  else 31

/-- The text after a mark. -/
def after? (mark : Char) : List Char → Option (List Char)
  | [] => none
  | c :: rest => if c = mark then some rest else none

/-- The text after a date. -/
def date? (cs : List Char) : Option (List Char) := do
  let (year, cs) ← digits? 4 0 9999 cs
  let (month, cs) ← digits? 2 1 12 (← after? '-' cs)
  let (_, cs) ← digits? 2 1 (daysIn year month) (← after? '-' cs)
  return cs

/-- The text after an hour and a minute. -/
def minute? (cs : List Char) : Option (List Char) := do
  let (_, cs) ← digits? 2 0 23 cs
  let (_, cs) ← digits? 2 0 59 (← after? ':' cs)
  return cs

/-- The text after a time of day. A minute may have a leap second. -/
def time? (cs : List Char) : Option (List Char) := do
  let (_, cs) ← digits? 2 0 60 (← after? ':' (← minute? cs))
  match cs with
  | '.' :: c :: rest => return if c.isDigit then rest.dropWhile Char.isDigit else cs
  | cs => return cs

/-- The text after an offset, if there is one. A sign has to be followed by hours and minutes. -/
def offset? : List Char → Option (List Char)
  | [] => some []
  | c :: rest =>
    if c = 'Z' ∨ c = 'z' then some rest
    else if c = '+' ∨ c = '-' then minute? rest
    else some (c :: rest)

/-- The text after a date or time. Between a date and its time there is a `T` or a blank. -/
def end? (cs : List Char) : Option (List Char) :=
  match date? cs with
  | none => time? cs
  | some [] => some []
  | some (c :: rest) =>
    if c = 'T' ∨ c = 't' ∨ c = ' ' then
      match time? rest with
      | some rest => offset? rest
      | none => some (c :: rest)
    else some (c :: rest)

/-- A date or time. -/
def read (cs : List Char) : Option (Json × List Char) :=
  (end? cs).map fun rest =>
    (.object [("date-time", .string (String.ofList (cs.take (cs.length - rest.length))))], rest)

example : end? "1979-05-27 07:32:00.5-07:00 #".toList = some " #".toList := by decide +kernel
example : end? "1979-05-27 # a day".toList = some " # a day".toList := by decide +kernel
example : end? "2023-02-29".toList = none := by decide +kernel

end Switchyard.Toml.DateTime
