/-!
# Integer views of binary64 numbers

A finite `Float` is `± m * 2 ^ q` with natural `m`. This file reads those parts off the bits and
derives from them the operations that have an exact integer meaning: truncation, rounding to the
nearest integer, saturating conversion to 64-bit integers and the truncating remainder.

* `parts`: sign, `m` and `q` of a finite number.
* `truncate`, `roundAway`: the integer part, and the nearest integer with halves away from zero.
* `toInt64Sat`: conversion that clamps at the ends of the 64-bit range.
* `remainder`: the remainder of the truncated quotient, with the sign of the dividend.
-/

namespace Switchyard.Binary64

/-- A finite number `(-1) ^ negative * m * 2 ^ q`. -/
structure Parts where
  negative : Bool
  m : Nat
  q : Int
  deriving DecidableEq, Repr

/-- The parts of a number, read off its bits. NaN and the infinities are decoded as if they were
numbers: callers rule them out first. -/
def parts (x : Float) : Parts :=
  let b := x.toBits
  let e := ((b >>> 52) &&& 0x7FF).toNat
  let f := (b &&& 0xFFFFFFFFFFFFF).toNat
  if e = 0 then ⟨b >>> 63 == 1, f, -1074⟩ else ⟨b >>> 63 == 1, Nat.pow 2 52 + f, (e : Int) - 1075⟩

def isFinite (x : Float) : Bool := ((x.toBits >>> 52) &&& 0x7FF) != 0x7FF

def infinity : Float := Float.ofBits 0x7FF0000000000000

def isNegative (x : Float) : Bool := x.toBits >>> 63 == 1

/-- The 64-bit integer nearest to an integer: the range is clamped at both ends. -/
def clampInt64 (n : Int) : Int64 :=
  if n < Int64.minValue.toInt then Int64.minValue
  else if Int64.maxValue.toInt < n then Int64.maxValue
  else Int64.ofInt n

/-- The integer part of `m * 2 ^ q`. -/
def wholeMagnitude (m : Nat) (q : Int) : Nat := m * Nat.pow 2 q.toNat / Nat.pow 2 (-q).toNat

/-- The integer nearest to `m * 2 ^ q`, halves going up. -/
def nearestMagnitude (m : Nat) (q : Int) : Nat :=
  (2 * (m * Nat.pow 2 q.toNat) + Nat.pow 2 (-q).toNat) / (2 * Nat.pow 2 (-q).toNat)

def signed (negative : Bool) (n : Nat) : Int := if negative then -(n : Int) else n

/-- The integer part of a finite number, toward zero. -/
def truncate (x : Float) : Int :=
  let p := parts x
  signed p.negative (wholeMagnitude p.m p.q)

/-- The integer nearest to a finite number, halves going away from zero. -/
def roundAway (x : Float) : Int :=
  let p := parts x
  signed p.negative (nearestMagnitude p.m p.q)

/-- Whether a number is an integer. NaN and the infinities are not. -/
def isWhole (x : Float) : Bool :=
  let p := parts x
  isFinite x && p.m * Nat.pow 2 p.q.toNat % Nat.pow 2 (-p.q).toNat == 0

/-- Converts with a given rounding: NaN gives 0 and what lies outside the range gives its end. -/
def toInt64With (round : Float → Int) (x : Float) : Int64 :=
  if x.isNaN then 0
  else if isFinite x then clampInt64 (round x)
  else if isNegative x then Int64.minValue else Int64.maxValue

/-- The integer part as a 64-bit integer. NaN gives 0 and the range is clamped. -/
def toInt64Sat (x : Float) : Int64 := toInt64With truncate x

/-- The nearest 64-bit integer, halves away from zero. NaN gives 0 and the range is clamped. -/
def roundInt64Sat (x : Float) : Int64 := toInt64With roundAway x

/-- The binary64 number nearest to a 64-bit integer, ties to even. -/
def ofInt64 (n : Int64) : Float := Float.ofInt n.toInt

/-- The number `± n * 2 ^ q`; exact when `n` has at most 53 bits and the exponent is in range. -/
def ofScaled (negative : Bool) (n : Nat) (q : Int) : Float :=
  let magnitude :=
    if n < Nat.pow 2 52 then
      Float.ofBits n.toUInt64
    else
      Float.ofBits ((n - Nat.pow 2 52) + (q + 1075).toNat * Nat.pow 2 52).toUInt64
  if negative then -magnitude else magnitude

/-- Doubles `n` and lowers `q` until `n` has 53 bits or `q` is the least exponent. -/
def normalize (n : Nat) (q : Int) : Nat × Int :=
  let shift := min (52 - n.log2) (q + 1074).toNat
  (n * Nat.pow 2 shift, q - shift)

/-- The remainder `x - y * n` where `n` is the quotient `x / y` rounded toward zero, computed
exactly. It has the sign of `x`. -/
def remainder (x y : Float) : Float :=
  if x.isNaN || y.isNaN || !isFinite x then Float.ofBits 0x7FF8000000000000
  else if !isFinite y then x
  else
    let a := parts x
    let b := parts y
    if b.m = 0 then Float.ofBits 0x7FF8000000000000
    else
      let q := min a.q b.q
      let r := (a.m * Nat.pow 2 (a.q - q).toNat) % (b.m * Nat.pow 2 (b.q - q).toNat)
      let (n, e) := normalize r q
      ofScaled a.negative n e

end Switchyard.Binary64
