import Switchyard.Decimal.Notation
import Switchyard.Text

/-!
# Timestamps

Messages about traffic carry the wall-clock time in UTC. Its written form is that of RFC 3339: a date,
a `T`, a time of day with as many decimals as are needed in groups of three, and the letter `Z`.

* `ofText?`: reads a time in any zone, more freely than it is written.
* `render`: writes it in UTC.
-/

namespace Switchyard.Channel

/-- A moment in UTC, by its calendar date and time of day. In a leap second, `second` is 60. -/
structure Timestamp where
  year : Int
  month : Nat
  day : Nat
  hour : Nat
  minute : Nat
  second : Nat
  nanosecond : Nat
  deriving DecidableEq, Repr, Inhabited

namespace Timestamp

def isLeapYear (year : Int) : Bool := year % 4 == 0 && (year % 100 != 0 || year % 400 == 0)

/-- The number of days in a month. -/
def daysIn (year : Int) (month : Nat) : Nat :=
  if month = 2 then (if isLeapYear year then 29 else 28)
  else if month ∈ [4, 6, 9, 11] then 30
  else 31

/-- The first and the last year that are told. -/
def firstYear : Int := -262143

def lastYear : Int := 262142

/-- Whether the date is in the calendar and the time within the day. -/
def isValid (t : Timestamp) : Bool :=
  firstYear ≤ t.year && t.year ≤ lastYear && 1 ≤ t.month && t.month ≤ 12 && 1 ≤ t.day &&
    t.day ≤ daysIn t.year t.month && t.hour ≤ 23 && t.minute ≤ 59 && t.second ≤ 60 && t.nanosecond < 1000000000

/-- The same time on the next day. -/
def nextDay (t : Timestamp) : Timestamp :=
  if t.day < daysIn t.year t.month then { t with day := t.day + 1 }
  else if t.month < 12 then { t with month := t.month + 1, day := 1 }
  else { t with year := t.year + 1, month := 1, day := 1 }

/-- The same time on the day before. -/
def previousDay (t : Timestamp) : Timestamp :=
  if 1 < t.day then { t with day := t.day - 1 }
  else if 1 < t.month then { t with month := t.month - 1, day := daysIn t.year (t.month - 1) }
  else { t with year := t.year - 1, month := 12, day := 31 }

def minutesPerDay : Nat := 1440

/-- The time in UTC of a local time that is ahead of it by some minutes, less than a day. -/
def toUtc (t : Timestamp) (ahead : Int) : Timestamp :=
  let minutes := (t.hour * 60 + t.minute : Nat) - ahead
  let ofDay := (minutes % minutesPerDay).toNat
  let t := if minutes < 0 then t.previousDay else if minutesPerDay ≤ minutes then t.nextDay else t
  { t with hour := ofDay / 60, minute := ofDay % 60 }

/-- A number in decimal digits, filled up with zeros. -/
def padded (width n : Nat) : List Char :=
  let digits := Nat.toDigits 10 n
  List.replicate (width - digits.length) '0' ++ digits

/-- Four digits; years that do not fit have a sign. -/
def yearChars (year : Int) : List Char :=
  if year < 0 then '-' :: padded 4 year.natAbs
  else if 9999 < year then '+' :: padded 4 year.natAbs
  else padded 4 year.natAbs

/-- Decimals of a second: none, or three, six or nine. -/
def fraction (nanosecond : Nat) : List Char :=
  if nanosecond = 0 then []
  else if nanosecond % 1000000 = 0 then '.' :: padded 3 (nanosecond / 1000000)
  else if nanosecond % 1000 = 0 then '.' :: padded 6 (nanosecond / 1000)
  else '.' :: padded 9 nanosecond

def render (t : Timestamp) : String :=
  String.ofList (yearChars t.year ++ '-' :: padded 2 t.month ++ '-' :: padded 2 t.day ++ 'T' :: padded 2 t.hour ++
    ':' :: padded 2 t.minute ++ ':' :: padded 2 t.second ++ fraction t.nanosecond ++ ['Z'])

def skipBlank (cs : List Char) : List Char := cs.dropWhile Text.isBlank

/-- A number at the front, of at most so many digits, and what follows it. -/
def number? (most : Nat) (cs : List Char) : Option (Nat × List Char) :=
  match (cs.take most).takeWhile Char.isDigit with
  | [] => none
  | digits => some (Decimal.digitsValue digits, cs.drop digits.length)

/-- A part of two digits at most. -/
def part? (cs : List Char) : Option (Nat × List Char) := number? 2 (skipBlank cs)

/-- A year of four digits at most, or one with a sign. -/
def year? (cs : List Char) : Option (Int × List Char) :=
  match skipBlank cs with
  | '-' :: rest => (number? rest.length rest).map fun (n, rest) => (-(n : Int), rest)
  | '+' :: rest => (number? rest.length rest).map fun (n, rest) => ((n : Int), rest)
  | cs => (number? 4 cs).map fun (n, rest) => ((n : Int), rest)

/-- The text after one of some characters. -/
def after? (options : List Char) : List Char → Option (List Char)
  | c :: rest => if c ∈ options then some rest else none
  | [] => none

/-- Decimals of a second, of which nine count. -/
def fraction? : List Char → Option (Nat × List Char)
  | '.' :: rest => do
    let digits := rest.takeWhile Char.isDigit
    if digits.isEmpty then none
    return (Decimal.digitsValue (digits.take 9 ++ List.replicate (9 - digits.length) '0'), rest.dropWhile Char.isDigit)
  | cs => some (0, cs)

/-- The sign of a zone: whether it is behind UTC. -/
def zoneSign? : List Char → Option (Bool × List Char)
  | '+' :: rest => some (false, rest)
  | '-' :: rest | '−' :: rest => some (true, rest)
  | _ => none

/-- How many minutes a zone is ahead of UTC, and what follows it. Between hours and minutes there may be
colons and white space. -/
def zone? (cs : List Char) : Option (Int × List Char) :=
  match cs with
  | 'Z' :: rest | 'z' :: rest => some (0, rest)
  | cs =>
    if (cs.take 3).map Char.toUpper = ['U', 'T', 'C'] then some (0, cs.drop 3)
    else
      match zoneSign? cs with
      | some (behind, h :: h' :: rest) =>
        match rest.dropWhile fun c => c == ':' || Text.isBlank c with
        | m :: m' :: rest =>
          if [h, h', m, m'].all Char.isDigit then
            let hours := Decimal.digitsValue [h, h']
            let minutes := Decimal.digitsValue [m, m']
            let ahead : Int := (hours * 60 + minutes : Nat)
            if 23 < hours || 59 < minutes then none else some (if behind then -ahead else ahead, rest)
          else none
        | _ => none
      | _ => none

/-- The time of a text. White space may stand between the parts, and parts may lack leading zeros. -/
def ofText? (text : String) : Option Timestamp := do
  let (year, cs) ← year? text.toList
  let (month, cs) ← part? (← after? ['-'] (skipBlank cs))
  let (day, cs) ← part? (← after? ['-'] (skipBlank cs))
  let (hour, cs) ← part? (← after? ['T', 't', ' '] cs)
  let (minute, cs) ← part? (← after? [':'] (skipBlank cs))
  let (second, cs) ← part? (← after? [':'] (skipBlank cs))
  let (nanosecond, cs) ← fraction? cs
  let (ahead, cs) ← zone? (skipBlank cs)
  let t : Timestamp := ⟨year, month, day, hour, minute, second, nanosecond⟩
  let utc := t.toUtc ahead
  if t.isValid && utc.isValid && (skipBlank cs).isEmpty then return utc else none

example : ofText? "2024-05-06T07:08:09Z" = some ⟨2024, 5, 6, 7, 8, 9, 0⟩ := by cbv

example : (ofText? "2023-12-31 23:30:00.25-01:00").map render = some "2024-01-01T00:30:00.250Z" := by cbv

end Timestamp
end Switchyard.Channel
