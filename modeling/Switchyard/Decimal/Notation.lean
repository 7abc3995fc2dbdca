import Switchyard.Decimal.Shortest

/-!
# Written numbers

How decimals are read and written. `toFloat` is the binary64 number nearest to a decimal, ties to even. A
`Layout` holds every decision on how the digits of a shortest decimal are laid out; there are two of
them: `plain`, for text shown to people, and `json`, for messages.
-/

namespace Switchyard.Decimal

/-- The value of a list of decimal digits. -/
def digitsValue (cs : List Char) : Nat := cs.foldl (fun n c => 10 * n + (c.toNat - '0'.toNat)) 0

/-- The number nearest to `digits * 10 ^ exp`. Exponents far outside the range are answered without
computing the power. -/
def toFloat (digits : Nat) (exp : Int) : Float :=
  if digits = 0 then 0
  else
    let magnitude : Int := (Nat.toDigits 10 digits).length + exp
    if 400 < magnitude then Binary64.infinity
    else if magnitude < -400 then 0
    else Float.ofScientific digits (exp < 0) exp.natAbs

/-- The decisions of a written form of binary64 numbers. -/
structure Layout where
  /-- Numbers whose leading digit has an exponent in `[plainFrom, plainBelow)` are written
  positionally; `none` means always. -/
  positional : Option (Int × Int)
  /-- Whether whole numbers end in `.0`. -/
  pointZero : Bool
  /-- Whether positive exponents have a sign. -/
  plusSign : Bool
  /-- Which of two equally close candidates is written. -/
  tie : Tie
  /-- The text of NaN. -/
  nan : String
  /-- The texts of the infinities. -/
  infinity : String
  negativeInfinity : String

/-- Display form: always positional, whole numbers without a point. -/
def plain : Layout where
  positional := none
  pointZero := false
  plusSign := false
  tie := .away
  nan := "NaN"
  infinity := "inf"
  negativeInfinity := "-inf"

/-- Message form: positional from `10 ^ -5` below `10 ^ 16`, whole numbers with `.0`, exponents
with their sign. What is no number is `null`. -/
def json : Layout where
  positional := some (-5, 16)
  pointZero := true
  plusSign := true
  tie := .toEven
  nan := "null"
  infinity := "null"
  negativeInfinity := "null"

def zeros (n : Nat) : List Char := List.replicate n '0'

/-- Positional form of the digits with the point after the first `point` of them. -/
def positionalText (layout : Layout) (digits : List Char) (point : Int) : List Char :=
  if point ≤ 0 then '0' :: '.' :: (zeros (-point).toNat ++ digits)
  else if digits.length ≤ point.toNat then
    digits ++ zeros (point.toNat - digits.length) ++ (if layout.pointZero then ['.', '0'] else [])
  else digits.take point.toNat ++ '.' :: digits.drop point.toNat

/-- Scientific form: one digit, the others after the point, the exponent. -/
def scientificText (layout : Layout) (digits : List Char) (e : Int) : List Char :=
  let mantissa := match digits with
    | d :: rest@(_ :: _) => d :: '.' :: rest
    | ds => ds
  let sign := if layout.plusSign && 0 ≤ e then ['+'] else []
  mantissa ++ 'e' :: (sign ++ (toString e).toList)

/-- The text of a positive finite number. -/
def magnitudeText (layout : Layout) (x : Float) : List Char :=
  let d := shortest layout.tie (Binary64.parts x)
  let digits := Nat.toDigits 10 d.digits
  let e : Int := d.exp + digits.length - 1
  match layout.positional with
  | none => positionalText layout digits (e + 1)
  | some (lo, hi) =>
    if lo ≤ e ∧ e < hi then positionalText layout digits (e + 1) else scientificText layout digits e

/-- The written form of a number. -/
def render (layout : Layout) (x : Float) : String :=
  if x.isNaN then layout.nan
  else if !Binary64.isFinite x then
    if Binary64.isNegative x then layout.negativeInfinity else layout.infinity
  else
    let magnitude := if x == 0 then '0' :: (if layout.pointZero then ['.', '0'] else []) else magnitudeText layout x
    String.ofList (if Binary64.isNegative x then '-' :: magnitude else magnitude)

end Switchyard.Decimal
