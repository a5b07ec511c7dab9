/-!
# Hexadecimal text

Numbers in base sixteen with lowercase digits: **without padding** (`digits`) and **padded with
zeros to a width** (`padded`). Frame keys and magic numbers are written padded, escaped
characters are not.
-/

namespace Resumption.Text.Hexadecimal

/-- The lowercase digit for a value below sixteen. -/
def digit (n : Nat) : Char :=
  if n < 10 then Char.ofNat ('0'.toNat + n) else Char.ofNat ('a'.toNat + (n - 10))

/-- The digits of a number, most significant first; zero has one digit. -/
def digits (n : Nat) : List Char :=
  (Nat.toDigits 16 n)

/-- The digits of a number, with zeros in front up to `width`. Wider numbers are kept whole. -/
def padded (width n : Nat) : String :=
  let ds := digits n
  String.ofList (List.replicate (width - ds.length) '0' ++ ds)

/-- The two digits of a byte. -/
def byte (b : UInt8) : List Char :=
  [digit (b.toNat / 16), digit (b.toNat % 16)]

/-- The value of a digit of either case. -/
def value? (c : Char) : Option Nat :=
  if '0' ≤ c ∧ c ≤ '9' then some (c.toNat - '0'.toNat)
  else if 'a' ≤ c ∧ c ≤ 'f' then some (c.toNat - 'a'.toNat + 10)
  else if 'A' ≤ c ∧ c ≤ 'F' then some (c.toNat - 'A'.toNat + 10)
  else none

end Resumption.Text.Hexadecimal
