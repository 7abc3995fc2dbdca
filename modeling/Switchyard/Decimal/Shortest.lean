import Switchyard.Binary64

/-!
# Shortest decimals

The decimal `digits * 10 ^ exp` with the fewest digits that reads back to a given binary64 number.
A decimal reads back to `x` when it lies among the reals that round to `x`: from halfway to the
neighbour below to halfway to the neighbour above, ends included exactly when the significand is
even. All comparisons are exact, on naturals.
-/

namespace Switchyard.Decimal

open Binary64 (Parts parts)

/-- The decimal `digits * 10 ^ exp`. -/
structure Dec where
  digits : Nat
  exp : Int
  deriving DecidableEq, Repr

/-- Which of two equally close candidates is taken. -/
inductive Tie where
  | toEven
  | away
  deriving DecidableEq, Repr

/-- Compares `a * 10 ^ i` with `n * 2 ^ j`. -/
def compareScaled (a : Nat) (i : Int) (n : Nat) (j : Int) : Ordering :=
  compare (a * Nat.pow 10 i.toNat * Nat.pow 2 (-j).toNat) (n * Nat.pow 2 j.toNat * Nat.pow 10 (-i).toNat)

/-- Whether the gap below `m * 2 ^ q` is half the gap above it: so below a power of two, except at
the least exponent. -/
def narrowBelow (p : Parts) : Bool := p.m == Nat.pow 2 52 && p.q > -1074

/-- Whether `d` lies among the reals that round to `m * 2 ^ q`. -/
def readsBack (p : Parts) (d : Dec) : Bool :=
  let lo := if narrowBelow p then 4 * p.m - 1 else 4 * p.m - 2
  let even := p.m % 2 == 0
  let below := compareScaled d.digits d.exp lo (p.q - 2)
  let above := compareScaled d.digits d.exp (4 * p.m + 2) (p.q - 2)
  (below == .gt || even && below == .eq) && (above == .lt || even && above == .eq)

/-- The least `k` with `m * 2 ^ q < 10 ^ k`, for positive `m`. -/
def scale (p : Parts) : Int :=
  let bits : Int := p.m.log2 + p.q
  let guess : Int := Int.fdiv (bits * 1233) 4096
  let candidates := [guess - 1, guess, guess + 1, guess + 2]
  (candidates.find? fun k => compareScaled 1 k p.m p.q == .gt).getD (guess + 3)

/-- The candidate of the grid `10 ^ exp`: the nearer neighbour of the number among those that read
back. -/
def onGrid (tie : Tie) (p : Parts) (exp : Int) : Option Dec :=
  let num := p.m * Nat.pow 2 p.q.toNat * Nat.pow 10 (-exp).toNat
  let den := Nat.pow 2 (-p.q).toNat * Nat.pow 10 exp.toNat
  let low := num / den
  let lowOk := low != 0 && readsBack p ⟨low, exp⟩
  let highOk := readsBack p ⟨low + 1, exp⟩
  let preferLow := match compare (2 * (num % den)) den with
    | .lt => true
    | .gt => false
    | .eq => match tie with
      | .toEven => low % 2 == 0
      | .away => false
  if lowOk && (preferLow || !highOk) then some ⟨low, exp⟩
  else if highOk then some ⟨low + 1, exp⟩
  else none

/-- Moves trailing zeros of the digits into the exponent; `fuel` bounds how many. -/
def stripZeros : Nat → Dec → Dec
  | 0, d => d
  | fuel + 1, d => if d.digits % 10 = 0 ∧ d.digits ≠ 0 then stripZeros fuel ⟨d.digits / 10, d.exp + 1⟩ else d

/-- The shortest decimal that reads back to a positive finite number; its last digit is not zero.
Seventeen digits always suffice. -/
def shortest (tie : Tie) (p : Parts) : Dec :=
  let k := scale p
  let found := (List.range 18).findSome? fun (n : Nat) => onGrid tie p (k - (n + 1))
  stripZeros 20 (found.getD ⟨p.m * Nat.pow 2 p.q.toNat * Nat.pow 5 (-p.q).toNat, min p.q 0⟩)

end Switchyard.Decimal
