import Resumption.Number.Ieee

/-!
# Shortest decimal text

**The digits** (`shortest`): the fewest significant decimal digits that read back as the same
value, and of those the nearest to it. The reals that read back as a value form an interval around
it, with its ends included when the fraction is even; for one, two, … digits the two neighbours of
the value on that decimal grid are tried, and the first grid with a neighbour in the interval wins.
A tie goes up.

**The layout** (`text`): positional from a ten thousandth up to below 10^16 and for zero, always
with a digit after the point; otherwise scientific, without a point after a single digit.
-/

namespace Resumption.Number.Shortest

open Ieee

/-- A positive decimal: the digits are read with the point in front of the first one, times ten
to `point`. -/
structure Decimal where
  /-- its digits -/
  digits : List Char
  /-- how far the point moves to the right -/
  point : Int
deriving DecidableEq, Repr

/-- A positive value `num / den` and the interval that reads back as it: `low` below and `high`
above, in the same denominator. -/
structure Target where
  /-- the number times the denominator -/
  num : Nat
  /-- the denominator -/
  den : Nat
  /-- how far below the number it may be, times the denominator -/
  low : Nat
  /-- how far above the number it may be, times the denominator -/
  high : Nat
  /-- do the ends belong to the interval? -/
  closed : Bool
deriving DecidableEq, Repr

/-- The target for a positive finite pattern. Below a power of two the spacing is half as wide. -/
def Target.ofBits (f : Format) (bits : Nat) : Target :=
  let fraction := f.fraction bits
  let gap := 1 <<< f.shift bits
  let below := if fraction = 0 && 0 < f.shift bits then gap else 2 * gap
  { num := 4 * f.magnitude bits
    den := 4 <<< f.unitExponent
    low := below
    high := 2 * gap
    closed := fraction % 2 = 0 }

/-- Does the grid point lie in the interval? The two arguments are the grid point and the value,
over a common denominator, and the width of the interval on that side. -/
def within (closed : Bool) (distance width : Nat) : Bool :=
  if closed then distance ≤ width else distance < width

/-- The winning neighbour of the value on the grid `num / den` of whole numbers. -/
def neighbour? (t : Target) (num den low high : Nat) : Option Nat :=
  let floor := num / den
  let below := num % den
  let above := den - below
  let down := within t.closed below low
  let up := within t.closed above high
  if down && up then some (if 2 * below < den then floor else floor + 1)
  else if down then some floor
  else if up then some (floor + 1)
  else none

/-- Tries grids of `count`, `count + 1`, … digits, at most `fuel` of them; `point` is the place of
the decimal point of the value. -/
def search (t : Target) (point : Int) : Nat → Nat → Nat × Int
  | 0, count => (0, point - count)
  | fuel + 1, count =>
    let exponent := point - count
    let found :=
      if exponent < 0 then
        let scale := Nat.pow 10 exponent.natAbs
        neighbour? t (t.num * scale) t.den (t.low * scale) (t.high * scale)
      else
        neighbour? t t.num (t.den * Nat.pow 10 exponent.toNat) t.low t.high
    match found with
    | some n => (n, exponent)
    | none => search t point fuel (count + 1)

/-- How many powers of ten bring `num / den`, below one, to one or above; `fuel` bounds them. -/
def leadingZeros (num den : Nat) : Nat → Nat
  | 0 => 0
  | fuel + 1 => if den ≤ num then 0 else leadingZeros (10 * num) den fuel + 1

/-- The decimal point of the value: it is at least ten to `point - 1` and below ten to `point`. -/
def pointOf (t : Target) : Int :=
  if t.den ≤ t.num then (Nat.toDigits 10 (t.num / t.den)).length
  else 1 - (leadingZeros t.num t.den 400 : Int)

/-- The shortest decimal of a positive finite pattern. -/
def shortest (f : Format) (bits : Nat) : Decimal :=
  let t := Target.ofBits f bits
  let (n, exponent) := search t (pointOf t) 18 1
  let digits := Nat.toDigits 10 n
  { digits := (digits.reverse.dropWhile (· == '0')).reverse
    point := exponent + digits.length }

/-- Positional or scientific text of a positive decimal. -/
def layout (d : Decimal) : List Char :=
  if -3 ≤ d.point && d.point ≤ 16 then
    if d.point ≤ 0 then
      ['0', '.'] ++ List.replicate d.point.natAbs '0' ++ d.digits
    else
      let whole := d.point.toNat
      if d.digits.length ≤ whole then
        d.digits ++ List.replicate (whole - d.digits.length) '0' ++ ['.', '0']
      else d.digits.take whole ++ ['.'] ++ d.digits.drop whole
  else
    let exponent := (toString (d.point - 1)).toList
    match d.digits with
    | [] => []
    | [c] => c :: 'e' :: exponent
    | c :: rest => c :: '.' :: rest ++ 'e' :: exponent

/-- The text of a value. -/
def text (f : Format) (bits : Nat) : String :=
  if f.isNaN bits then "NaN"
  else
    let magnitude := f.withoutSign bits
    let body :=
      if f.isInfinite bits then ['i', 'n', 'f']
      else if magnitude = 0 then ['0', '.', '0']
      else layout (shortest f magnitude)
    String.ofList (if f.isNegative bits then '-' :: body else body)

end Resumption.Number.Shortest
