import Resumption.Code.Label
import Resumption.Descriptor.Basic

/-!
# Instructions

Instructions of a stack machine with typed locals. Jumps name labels, and labels stand in the
instruction list themselves, as do line numbers; neither executes anything. Instructions that differ
only in the kind of value they work on are one constructor with a kind.

* **`targets`** and **`fallsThrough`** say where control can go next.
* **`mapLabels`** renames every label an instruction mentions.
-/

namespace Resumption

/-! ## Kinds of values -/

/-- Kinds of values that a local variable can hold. -/
inductive ValueKind where
  | int | long | float | double | object
deriving DecidableEq, Repr, Inhabited

/-- Kinds of array elements that the array instructions tell apart. -/
inductive ElementKind where
  | int | long | float | double | object | byte | char | short
deriving DecidableEq, Repr, Inhabited

/-- Kinds of numbers. -/
inductive NumericKind where
  | int | long | float | double
deriving DecidableEq, Repr, Inhabited

/-- Kinds of integers. -/
inductive IntegralKind where
  | int | long
deriving DecidableEq, Repr, Inhabited

/-- Kinds of floating point numbers. -/
inductive FloatKind where
  | float | double
deriving DecidableEq, Repr, Inhabited

/-! ## Operations -/

/-- Rearrangements of the top of the operand stack, counted in words. -/
inductive StackOp where
  | pop | pop2 | dup | dupX1 | dupX2 | dup2 | dup2X1 | dup2X2 | swap
deriving DecidableEq, Repr, Inhabited

/-- Arithmetic on two numbers. -/
inductive ArithOp where
  | add | sub | mul | div | rem
deriving DecidableEq, Repr, Inhabited

/-- Bitwise operations on two integers. -/
inductive BitOp where
  | and | or | xor
deriving DecidableEq, Repr, Inhabited

/-- Shifts. -/
inductive ShiftOp where
  | left | arithmeticRight | logicalRight
deriving DecidableEq, Repr, Inhabited

/-- Conversions between numbers. -/
inductive Conversion where
  | intToLong | intToFloat | intToDouble
  | longToInt | longToFloat | longToDouble
  | floatToInt | floatToLong | floatToDouble
  | doubleToInt | doubleToLong | doubleToFloat
  | intToByte | intToChar | intToShort
deriving DecidableEq, Repr, Inhabited

/-- Result of a floating point comparison with an operand that is not a number. -/
inductive NaNOrder where
  | less | greater
deriving DecidableEq, Repr, Inhabited

/-- Comparisons of integers. -/
inductive Comparison where
  | eq | ne | lt | ge | gt | le
deriving DecidableEq, Repr, Inhabited

/-- Comparisons of references. -/
inductive Equality where
  | eq | ne
deriving DecidableEq, Repr, Inhabited

/-- How the target of a call is found. -/
inductive CallKind where
  | virtual | special | static | interface
deriving DecidableEq, Repr, Inhabited

/-! ## Operands -/

/-- A field of a class. -/
structure FieldRef where
  /-- the class in which it is looked for -/
  owner : ClassName
  /-- how it is called -/
  name : MemberName
  /-- what it holds -/
  type : FieldType
deriving DecidableEq, Repr, Inhabited

/-- A method of a class. -/
structure MethodRef where
  /-- the class in which it is looked for -/
  owner : ClassName
  /-- how it is called -/
  name : MemberName
  /-- what it takes and gives -/
  descriptor : MethodDescriptor
deriving DecidableEq, Repr, Inhabited

/-- A call whose target is computed at run time. -/
structure CallSite where
  /-- how it is called -/
  name : MemberName
  /-- what it takes and gives -/
  descriptor : MethodDescriptor
deriving DecidableEq, Repr, Inhabited

/-- Constants other than numbers. -/
inductive Constant where
  /-- a text -/
  | string (s : String)
  /-- the object of a type -/
  | type (t : RefType)
  /-- the object of a method descriptor -/
  | methodType (d : MethodDescriptor)
deriving DecidableEq, Repr, Inhabited

/-- Instructions, and the marks that stand between them. -/
inductive Instruction where
  /-- marks a place; not executed -/
  | label (l : Label)
  /-- tells the line of the source; not executed -/
  | lineNumber (line : Nat)
  /-- does nothing -/
  | nop
  /-- pushes null -/
  | pushNull
  /-- pushes a number of kind int -/
  | pushInt (value : Int32)
  /-- pushes a number of kind long -/
  | pushLong (value : Int64)
  /-- pushes a floating point number of 32 bits -/
  | pushFloat (bits : UInt32)
  /-- pushes a floating point number of 64 bits -/
  | pushDouble (bits : UInt64)
  /-- pushes the object of a constant -/
  | pushConstant (c : Constant)
  /-- pushes a variable -/
  | load (kind : ValueKind) (slot : Nat)
  /-- pops into a variable -/
  | store (kind : ValueKind) (slot : Nat)
  /-- pushes an element -/
  | arrayLoad (element : ElementKind)
  /-- pops into an element -/
  | arrayStore (element : ElementKind)
  /-- rearranges the stack -/
  | stack (op : StackOp)
  /-- calculates with two numbers -/
  | arith (op : ArithOp) (kind : NumericKind)
  /-- negates a number -/
  | neg (kind : NumericKind)
  /-- shifts bits -/
  | shift (op : ShiftOp) (kind : IntegralKind)
  /-- combines bits -/
  | bitwise (op : BitOp) (kind : IntegralKind)
  /-- adds to a variable of kind int -/
  | increment (slot : Nat) (delta : Int16)
  /-- makes a number one of another kind -/
  | convert (c : Conversion)
  /-- compares two numbers of kind long -/
  | compareLong
  /-- compares two floating point numbers -/
  | compareFloat (kind : FloatKind) (nan : NaNOrder)
  /-- pushes a static field -/
  | getStatic (field : FieldRef)
  /-- pops into a static field -/
  | putStatic (field : FieldRef)
  /-- pushes a field of an instance -/
  | getField (field : FieldRef)
  /-- pops into a field of an instance -/
  | putField (field : FieldRef)
  /-- calls a method -/
  | invoke (kind : CallKind) (method : MethodRef)
  /-- calls a method that is only known when it is called -/
  | invokeDynamic (site : CallSite)
  /-- makes an instance, whose constructor is still to be run -/
  | new (owner : ClassName)
  /-- makes an array of a primitive type -/
  | newArray (element : BaseType)
  /-- makes an array of references -/
  | newRefArray (element : RefType)
  /-- makes an array with arrays in it -/
  | newMultiArray (type : RefType) (dimensions : Nat)
  /-- pushes the length of an array -/
  | arrayLength
  /-- throws an exception if a reference is not of a type -/
  | checkCast (type : RefType)
  /-- tells whether a reference is of a type -/
  | instanceOf (type : RefType)
  /-- enters a monitor -/
  | monitorEnter
  /-- exits a monitor -/
  | monitorExit
  /-- jumps if a number compares with zero like this -/
  | ifZero (comparison : Comparison) (target : Label)
  /-- jumps if two numbers compare like this -/
  | ifInt (comparison : Comparison) (target : Label)
  /-- jumps if two references compare like this -/
  | ifRef (equality : Equality) (target : Label)
  /-- jumps if a reference compares with null like this -/
  | ifNull (equality : Equality) (target : Label)
  /-- jumps -/
  | goto (target : Label)
  /-- calls a subroutine -/
  | jsr (target : Label)
  /-- returns from a subroutine -/
  | ret (slot : Nat)
  /-- jumps by a number, to one of consecutive cases -/
  | tableSwitch (low : Int32) (default : Label) (targets : List Label)
  /-- jumps by a number, to one of some cases -/
  | lookupSwitch (default : Label) (cases : List (Int32 × Label))
  /-- returns a value -/
  | returnValue (kind : ValueKind)
  /-- returns nothing -/
  | returnVoid
  /-- throws an exception -/
  | throw
deriving DecidableEq, Repr, Inhabited

namespace ValueKind

/-- Words of a frame that a value takes. -/
def width : ValueKind → Nat
  | .long | .double => 2
  | _ => 1

/-- All kinds, in the order in which saved values are grouped. -/
def all : List ValueKind := [.int, .long, .float, .double, .object]

end ValueKind

namespace Comparison

/-- Does the comparison hold of operands in this order? -/
def holds : Comparison → Ordering → Bool
  | .eq, o => o == .eq
  | .ne, o => o != .eq
  | .lt, o => o == .lt
  | .ge, o => o != .lt
  | .gt, o => o == .gt
  | .le, o => o != .gt

end Comparison

namespace Equality

/-- Does the comparison hold of operands that are the same, or not? -/
def holds : Equality → Bool → Bool
  | .eq, same => same
  | .ne, same => !same

end Equality

/-- Class, name and descriptor of a method in one text. -/
def MethodRef.pretty (m : MethodRef) : String :=
  s!"{m.owner.text}.{m.name.text}{m.descriptor.render}"

namespace Instruction

/-- Labels to which the instruction may jump. -/
def targets : Instruction → List Label
  | .ifZero _ l | .ifInt _ l | .ifRef _ l | .ifNull _ l | .goto l | .jsr l => [l]
  | .tableSwitch _ default targets => targets ++ [default]
  | .lookupSwitch default cases => cases.map (·.2) ++ [default]
  | _ => []

/-- Can control go on to the next instruction of the list? -/
def fallsThrough : Instruction → Bool
  | .goto _ | .jsr _ | .ret _ | .tableSwitch .. | .lookupSwitch .. | .returnValue _ | .returnVoid
  | .throw => false
  | _ => true

/-- A mark that executes nothing. -/
def isMark : Instruction → Bool
  | .label _ | .lineNumber _ => true
  | _ => false

/-- Renames every label that the instruction mentions or places. -/
def mapLabels (f : Label → Label) : Instruction → Instruction
  | .label l => .label (f l)
  | .ifZero c l => .ifZero c (f l)
  | .ifInt c l => .ifInt c (f l)
  | .ifRef e l => .ifRef e (f l)
  | .ifNull e l => .ifNull e (f l)
  | .goto l => .goto (f l)
  | .jsr l => .jsr (f l)
  | .tableSwitch low default targets => .tableSwitch low (f default) (targets.map f)
  | .lookupSwitch default cases =>
    .lookupSwitch (f default) (cases.map fun (key, l) => (key, f l))
  | i => i

/-- Is this a call of a method with this name on this class? -/
def isCallTo (owner : ClassName) (name : MemberName) : Instruction → Bool
  | .invoke _ m => m.owner == owner && m.name == name
  | _ => false

/-- The label that the instruction places. -/
def placed? : Instruction → Option Label
  | .label l => some l
  | _ => none

end Instruction

end Resumption
