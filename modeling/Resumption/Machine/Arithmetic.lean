import Resumption.Code.Instruction
import Resumption.Number.Ieee

/-!
# Arithmetic

What the arithmetic instructions compute. Integers wrap around, shifts take their amount modulo the
width, integer division by zero has no result, and conversions of floating point numbers to integers
stop at the ends of the range.
-/

namespace Resumption

open Number.Ieee

namespace ArithOp

/-- The result on integers, `none` for division by zero. -/
def int? (op : ArithOp) (a b : Int32) : Option Int32 :=
  match op with
  | .add => some (a + b)
  | .sub => some (a - b)
  | .mul => some (a * b)
  | .div => if b = 0 then none else some (a / b)
  | .rem => if b = 0 then none else some (a % b)

/-- The result on longs, `none` for division by zero. -/
def long? (op : ArithOp) (a b : Int64) : Option Int64 :=
  match op with
  | .add => some (a + b)
  | .sub => some (a - b)
  | .mul => some (a * b)
  | .div => if b = 0 then none else some (a / b)
  | .rem => if b = 0 then none else some (a % b)

/-- The result on the bits of floating point numbers. -/
def ieee (f : Format) : ArithOp → Nat → Nat → Nat
  | .add => f.add
  | .sub => f.sub
  | .mul => f.mul
  | .div => f.div
  | .rem => f.rem

/-- The result on floats. -/
def float (op : ArithOp) (a b : UInt32) : UInt32 := UInt32.ofNat (op.ieee single a.toNat b.toNat)

/-- The result on doubles. -/
def double (op : ArithOp) (a b : UInt64) : UInt64 :=
  UInt64.ofNat (op.ieee Number.Ieee.double a.toNat b.toNat)

end ArithOp

namespace BitOp

/-- On 32 bits. -/
def int : BitOp → Int32 → Int32 → Int32
  | .and, a, b => a &&& b
  | .or, a, b => a ||| b
  | .xor, a, b => a ^^^ b

/-- On 64 bits. -/
def long : BitOp → Int64 → Int64 → Int64
  | .and, a, b => a &&& b
  | .or, a, b => a ||| b
  | .xor, a, b => a ^^^ b

end BitOp

namespace ShiftOp

/-- On 32 bits. -/
def int : ShiftOp → Int32 → Int32 → Int32
  | .left, a, amount => a <<< amount
  | .arithmeticRight, a, amount => a >>> amount
  | .logicalRight, a, amount => (a.toUInt32 >>> amount.toUInt32).toInt32

/-- On 64 bits. -/
def long : ShiftOp → Int64 → Int32 → Int64
  | .left, a, amount => a <<< amount.toInt64
  | .arithmeticRight, a, amount => a >>> amount.toInt64
  | .logicalRight, a, amount => (a.toUInt64 >>> amount.toInt64.toUInt64).toInt64

end ShiftOp

/-- A byte, with its sign. -/
def signedByte (n : Int32) : Int32 := n.toInt8.toInt32

/-- A char, without sign. -/
def unsignedChar (n : Int32) : Int32 := n.toUInt32.toUInt16.toUInt32.toInt32

/-- A short, with its sign. -/
def signedShort (n : Int32) : Int32 := n.toInt16.toInt32

/-- The integer nearest to zero on the way to a floating point number. -/
def truncated32 (f : Format) (bits : Nat) : Int32 :=
  Int32.ofInt (f.toIntClamped (-0x80000000) 0x7fffffff bits)

/-- The long nearest to zero on the way to a floating point number. -/
def truncated64 (f : Format) (bits : Nat) : Int64 :=
  Int64.ofInt (f.toIntClamped (-0x8000000000000000) 0x7fffffffffffffff bits)

/-- The number that stands for an order. -/
def orderNumber : Ordering → Int32
  | .lt => -1
  | .eq => 0
  | .gt => 1

/-- The number that stands for the order of two floating point numbers. -/
def NaNOrder.compare (nan : NaNOrder) (f : Format) (a b : Nat) : Int32 :=
  match f.compare? a b, nan with
  | some order, _ => orderNumber order
  | none, .less => -1
  | none, .greater => 1

end Resumption
