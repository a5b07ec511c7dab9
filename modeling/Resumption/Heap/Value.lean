import Resumption.Code.Describe

/-!
# Values

What locals, operand stacks, fields and arrays hold at run time. A `long` or a `double` is one value
of two words; floating point values are kept as their bits. References are indexes into a heap that
only grows, so a reference stays good.
-/

namespace Resumption

/-- A reference to an object on the heap. -/
structure Ref where
  /-- the place on the heap -/
  index : Nat
deriving DecidableEq, Repr, Inhabited

/-- The reference as it is written in messages. -/
def Ref.describe (r : Ref) : String := s!"@{r.index}"

/-- A value at run time. -/
inductive Value where
  /-- a number of 32 bits -/
  | int (n : Int32)
  /-- a number of 64 bits, two words wide -/
  | long (n : Int64)
  /-- the pattern of a floating point number of 32 bits -/
  | float (bits : UInt32)
  /-- the pattern of a floating point number of 64 bits, two words wide -/
  | double (bits : UInt64)
  /-- no object -/
  | null
  /-- an object -/
  | ref (r : Ref)
  /-- a local that holds nothing -/
  | top
deriving DecidableEq, Repr, Inhabited

namespace Value

/-- Words that the value takes. -/
def width : Value → Nat
  | .long _ | .double _ => 2
  | _ => 1

/-- The object that the value refers to. -/
def ref? : Value → Option Ref
  | .ref r => some r
  | _ => none

/-- Is it an object or null? -/
def isReference : Value → Bool
  | .ref _ | .null => true
  | _ => false

/-- The value that fields and array elements start with. -/
def zero : FieldType → Value
  | .base .long => .long 0
  | .base .float => .float 0
  | .base .double => .double 0
  | .base _ => .int 0
  | .ref _ => .null

/-- Are two values the same? Floating point values are compared as numbers. -/
def same : Value → Value → Bool
  | .float a, .float b => Number.Ieee.single.compare? a.toNat b.toNat == some .eq
  | .double a, .double b => Number.Ieee.double.compare? a.toNat b.toNat == some .eq
  | a, b => a == b

/-- The value as it is written in messages. -/
def describe : Value → String
  | .int n => s!"Int({n.toInt})"
  | .long n => s!"Long({n.toInt})"
  | .float bits => s!"Float({describeFloat bits})"
  | .double bits => s!"Double({describeDouble bits})"
  | .null => "Null"
  | .ref r => s!"Ref({r.describe})"
  | .top => "Top"

end Value

end Resumption
