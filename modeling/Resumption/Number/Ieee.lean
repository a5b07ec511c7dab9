/-!
# Binary floating point

Floating point values are kept as their bits, so that moving a value never changes it. A
`Format` gives the widths of the two fields; `single` and `double` are the two in use. Every finite
value is a whole multiple of the smallest positive one, so arithmetic is exact on natural numbers
in that unit (`magnitude`) and rounds once, to nearest and ties to even (`round`).

**A result that is not a number** carries information too: an operand that is not a number is
passed on with its quiet bit set, the first one winning, and an invalid operation gives
`Format.invalid`.
-/

namespace Resumption.Number.Ieee

/-- Widths of the fraction and exponent fields of a binary format. -/
structure Format where
  /-- bits behind the point -/
  fractionBits : Nat
  /-- bits of the exponent -/
  exponentBits : Nat
deriving DecidableEq, Repr

/-- The 32 bit format. -/
def single : Format := ⟨23, 8⟩

/-- The 64 bit format. -/
def double : Format := ⟨52, 11⟩

namespace Format

variable (f : Format)

/-- Weight of the sign bit. -/
def signBit : Nat := 1 <<< (f.fractionBits + f.exponentBits)

/-- Bits of positive infinity, the least pattern that is not finite. -/
def infinity : Nat := ((1 <<< f.exponentBits) - 1) <<< f.fractionBits

/-- The bit that tells a quiet not-a-number from a signalling one. -/
def quietBit : Nat := 1 <<< (f.fractionBits - 1)

/-- The result of an invalid operation on numbers. -/
def invalid : Nat := f.signBit + f.infinity + f.quietBit

/-- The unit: the smallest positive value is two to the minus this. -/
def unitExponent : Nat := (1 <<< (f.exponentBits - 1)) - 2 + f.fractionBits

/-- Is the sign bit set? -/
def isNegative (bits : Nat) : Bool := f.signBit ≤ bits

/-- The bits without the sign. -/
def withoutSign (bits : Nat) : Nat := bits % f.signBit

/-- Not a number? -/
def isNaN (bits : Nat) : Bool := f.infinity < f.withoutSign bits

/-- Positive or negative infinity? -/
def isInfinite (bits : Nat) : Bool := f.withoutSign bits == f.infinity

/-- Sets the sign. -/
def withSign (negative : Bool) (bits : Nat) : Nat :=
  if negative then f.signBit + bits else bits

/-- The fraction bits. -/
def fraction (bits : Nat) : Nat := bits % (1 <<< f.fractionBits)

/-- How far the fraction of a finite value is shifted: its spacing is two to this, in units. -/
def shift (bits : Nat) : Nat := (f.withoutSign bits >>> f.fractionBits) - 1

/-- The absolute value of a finite value, in units. -/
def magnitude (bits : Nat) : Nat :=
  let exponent := f.withoutSign bits >>> f.fractionBits
  let fraction := f.fraction bits
  if exponent = 0 then fraction else ((1 <<< f.fractionBits) + fraction) <<< (exponent - 1)

/-- The value nearest to `num / den` units, ties to even, `den` positive. The pattern of a value is
its shift times two to the fraction width, plus its fraction with the leading bit: a carry out of
the fraction therefore lands in the next binade by itself. -/
def round (negative : Bool) (num den : Nat) : Nat :=
  let shift := Nat.log2 (num / den) - f.fractionBits
  let unit := den <<< shift
  let quotient := num / unit
  let rest := 2 * (num % unit)
  let rounded :=
    if rest < unit then quotient
    else if rest = unit then quotient + quotient % 2
    else quotient + 1
  let pattern := (shift <<< f.fractionBits) + rounded
  f.withSign negative (min pattern f.infinity)

/-- The signed multiple of the unit that a finite value is. -/
def toUnits (bits : Nat) : Int :=
  if f.isNegative bits then -(f.magnitude bits : Int) else f.magnitude bits

/-- The operand to pass on when one of the two is not a number. -/
def propagated? (a b : Nat) : Option Nat :=
  let quieted (bits : Nat) := if bits / f.quietBit % 2 = 1 then bits else bits + f.quietBit
  if f.isNaN a then some (quieted a) else if f.isNaN b then some (quieted b) else none

/-- Sum. Equal values of opposite sign cancel to positive zero. -/
def add (a b : Nat) : Nat :=
  match f.propagated? a b with
  | some bits => bits
  | none =>
    if f.isInfinite a then
      if f.isInfinite b && a != b then f.invalid else a
    else if f.isInfinite b then b
    else
      let sum := f.toUnits a + f.toUnits b
      if sum = 0 then f.withSign (f.isNegative a && f.isNegative b) 0
      else f.round (sum < 0) sum.natAbs 1

/-- The opposite: only the sign bit changes, also of what is not a number. -/
def neg (bits : Nat) : Nat :=
  if f.isNegative bits then bits - f.signBit else bits + f.signBit

/-- Difference. An operand that is not a number is passed on with its own sign. -/
def sub (a b : Nat) : Nat :=
  match f.propagated? a b with
  | some bits => bits
  | none => f.add a (f.neg b)

/-- Product. -/
def mul (a b : Nat) : Nat :=
  match f.propagated? a b with
  | some bits => bits
  | none =>
    let negative := f.isNegative a != f.isNegative b
    if f.isInfinite a || f.isInfinite b then
      if f.withoutSign a = 0 || f.withoutSign b = 0 then f.invalid
      else f.withSign negative f.infinity
    else f.round negative (f.magnitude a * f.magnitude b) (1 <<< f.unitExponent)

/-- Quotient. -/
def div (a b : Nat) : Nat :=
  match f.propagated? a b with
  | some bits => bits
  | none =>
    let negative := f.isNegative a != f.isNegative b
    if f.isInfinite a then
      if f.isInfinite b then f.invalid else f.withSign negative f.infinity
    else if f.isInfinite b then f.withSign negative 0
    else if f.withoutSign b = 0 then
      if f.withoutSign a = 0 then f.invalid else f.withSign negative f.infinity
    else f.round negative (f.magnitude a <<< f.unitExponent) (f.magnitude b)

/-- Remainder of the division that truncates; it has the sign of the dividend. -/
def rem (a b : Nat) : Nat :=
  match f.propagated? a b with
  | some bits => bits
  | none =>
    if f.isInfinite a || f.withoutSign b = 0 then f.invalid
    else if f.isInfinite b then a
    else f.round (f.isNegative a) (f.magnitude a % f.magnitude b) 1

/-- Order of two values, `none` if one is not a number. The two zeros are equal. -/
def compare? (a b : Nat) : Option Ordering :=
  if f.isNaN a || f.isNaN b then none
  else
    let key (bits : Nat) : Int :=
      if f.isNegative bits then -(f.withoutSign bits : Int) else f.withoutSign bits
    some (compare (key a) (key b))

/-- The value nearest to an integer. -/
def ofInt (n : Int) : Nat := f.round (n < 0) (n.natAbs <<< f.unitExponent) 1

/-- The integer part, limited to the range from `low` to `high`; zero for what is not a number. -/
def toIntClamped (low high : Int) (bits : Nat) : Int :=
  if f.isNaN bits then 0
  else if f.isInfinite bits then if f.isNegative bits then low else high
  else
    let whole : Int := (f.magnitude bits >>> f.unitExponent : Nat)
    max low (min high (if f.isNegative bits then -whole else whole))

end Format

/-- The double with the value of a single; payloads keep their leading bits. -/
def widen (bits : Nat) : Nat :=
  let negative := single.isNegative bits
  if single.isNaN bits then
    double.withSign negative
      (double.infinity + ((bits % single.quietBit + single.quietBit) <<< 29))
  else if single.isInfinite bits then double.withSign negative double.infinity
  else
    double.round negative
      (single.magnitude bits <<< (double.unitExponent - single.unitExponent)) 1

/-- The single nearest to a double; payloads lose their trailing bits. -/
def narrow (bits : Nat) : Nat :=
  let negative := double.isNegative bits
  if double.isNaN bits then
    single.withSign negative
      (single.infinity + single.quietBit + (bits >>> 29) % single.quietBit)
  else if double.isInfinite bits then single.withSign negative single.infinity
  else
    single.round negative (double.magnitude bits)
      (1 <<< (double.unitExponent - single.unitExponent))

end Resumption.Number.Ieee
