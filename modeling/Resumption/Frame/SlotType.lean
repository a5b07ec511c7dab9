import Resumption.Hierarchy.Subtyping

/-!
# Types of frame slots

What is known, while code is being checked, about the value in a local variable or on the operand
stack. `top` is a slot that cannot be used: never written, the second half of a wide value, or the
result of merging types that have nothing in common. An object that `new` made stays *uninitialized*
until its constructor has run.
-/

namespace Resumption

/-- What is known about the value in a slot. -/
inductive SlotType where
  /-- anything, or the second word of a wide value -/
  | top
  /-- a number of kind int -/
  | integer
  /-- a floating point number of one word -/
  | float
  /-- a floating point number of two words -/
  | double
  /-- a number of kind long, of two words -/
  | long
  /-- the null reference -/
  | null
  /-- the receiver of a constructor, before another constructor has run -/
  | uninitializedThis
  /-- a reference to an initialized object, or null -/
  | object (type : RefType)
  /-- the result of the `new` instruction with this index -/
  | uninitialized (name : ClassName) (index : Nat)
deriving DecidableEq, Repr, Inhabited

namespace SlotType

/-- Words of a frame that a value takes. -/
def width : SlotType → Nat
  | .double | .long => 2
  | _ => 1

/-- An initialized instance of a class. -/
def ofClass (c : ClassName) : SlotType := .object (.object c)

/-- The type of a value read from a field, parameter or result. -/
def ofField : FieldType → SlotType
  | .base .float => .float
  | .base .long => .long
  | .base .double => .double
  | .base _ => .integer
  | .ref t => .object t

/-- Array dimensions of the object in the slot. -/
def dimensions : SlotType → Nat
  | .object t => t.dimensions
  | _ => 0

/-- Whether values of the type are references. -/
def isReference : SlotType → Bool
  | .null | .uninitializedThis | .object _ | .uninitialized _ _ => true
  | _ => false

/-- Whether values of the type are instances whose constructor has not run. -/
def isUninitialized : SlotType → Bool
  | .uninitializedThis | .uninitialized _ _ => true
  | _ => false

/-- May a value of the first type be used where the second is wanted? Only categories count: any
initialized reference fits any reference type. -/
def fits : (found wanted : SlotType) → Bool
  | .top, _ => false
  | .null, .object _ | .object _, .object _ => true
  | _, .object _ => false
  | found, wanted => found = wanted

/-- The type of a value that comes from one of two places. -/
def merge (h : Hierarchy) (a b : SlotType) : Known SlotType :=
  if a = b then .ok a
  else
    match a, b with
    | .null, .object t | .object t, .null => .ok (.object t)
    | .object t, .object u => do return .object (← h.merge t u)
    | _, _ => .ok .top

/-- The type as it is written in messages. -/
def describe : SlotType → String
  | .top => "Top"
  | .integer => "Integer"
  | .float => "Float"
  | .double => "Double"
  | .long => "Long"
  | .null => "Null"
  | .uninitializedThis => "UninitializedThis"
  | .object t => s!"Object({t.describe})"
  | .uninitialized name index =>
    s!"Uninitialized(UninitializedRefType \x7b class: {name.text}, new_index: {index} \x7d)"

end SlotType

end Resumption
