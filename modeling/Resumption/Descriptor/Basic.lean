import Resumption.Name.WellKnown

/-!
# Types and their descriptors

**Primitive types** (`BaseType`), **reference types** (`RefType`: a class, or an array of one or
more dimensions over a class or over a primitive type), **field types** (either of the two) and
**method descriptors** (parameter types and an optional result). Each has a written form, its
descriptor, given by `render`; `describe` is the longer form that shows the structure of the value.

A value of type `long` or `double` takes two words of a frame, every other value one (`width`).
-/

namespace Resumption

/-- Primitive types. -/
inductive BaseType where
  | byte | char | double | float | int | long | short | boolean
deriving DecidableEq, Repr, Inhabited

/-- Reference types. An array type has `extra + 1` dimensions over its element type. -/
inductive RefType where
  /-- a class or an interface -/
  | object (name : ClassName)
  /-- an array of a class, with some further dimensions -/
  | objectArray (extra : Nat) (element : ClassName)
  /-- an array of a primitive type, with some further dimensions -/
  | primitiveArray (extra : Nat) (element : BaseType)
deriving DecidableEq, Repr, Inhabited

/-- Types of fields, parameters and results. -/
inductive FieldType where
  /-- a primitive type -/
  | base (type : BaseType)
  /-- a reference type -/
  | ref (type : RefType)
deriving DecidableEq, Repr, Inhabited

/-- Parameters and result of a method; no result means `void`. -/
structure MethodDescriptor where
  /-- what it takes, in order -/
  parameters : List FieldType
  /-- what it gives, if anything -/
  result : Option FieldType
deriving DecidableEq, Repr, Inhabited

namespace BaseType

/-- Words of a frame that a value takes. -/
def width : BaseType → Nat
  | .double | .long => 2
  | _ => 1

/-- The descriptor character. -/
def letter : BaseType → Char
  | .byte => 'B'
  | .char => 'C'
  | .double => 'D'
  | .float => 'F'
  | .int => 'I'
  | .long => 'J'
  | .short => 'S'
  | .boolean => 'Z'

/-- The primitive type with a descriptor character. -/
def ofLetter? : Char → Option BaseType
  | 'B' => some .byte
  | 'C' => some .char
  | 'D' => some .double
  | 'F' => some .float
  | 'I' => some .int
  | 'J' => some .long
  | 'S' => some .short
  | 'Z' => some .boolean
  | _ => none

/-- The type as it is written in an instruction. -/
def describe : BaseType → String
  | .byte => "Byte"
  | .char => "Char"
  | .double => "Double"
  | .float => "Float"
  | .int => "Int"
  | .long => "Long"
  | .short => "Short"
  | .boolean => "Boolean"

end BaseType

/-- The descriptor of a class: its name between `L` and `;`. -/
def ClassName.descriptor (c : ClassName) : List Char := 'L' :: c.text.toList ++ [';']

namespace RefType

/-- The characters of the descriptor. -/
def chars : RefType → List Char
  | .object name => name.descriptor
  | .objectArray extra element => List.replicate (extra + 1) '[' ++ element.descriptor
  | .primitiveArray extra element => List.replicate (extra + 1) '[' ++ [element.letter]

/-- The descriptor of the type. -/
def render (t : RefType) : String := String.ofList t.chars

/-- An array type as `describe` shows it. -/
def describeArray (extra : Nat) (element : String) : String :=
  s!"ArrayType \x7b additional_dimensions: {extra}, element_type: {element} \x7d"

/-- The type as it is written in an instruction. -/
def describe : RefType → String
  | .object name => s!"Object({name.text})"
  | .objectArray extra element => s!"ObjectArray({describeArray extra element.text})"
  | .primitiveArray extra element => s!"PrimitiveArray({describeArray extra element.describe})"

/-- Whether values of the type are arrays. -/
def isArray : RefType → Bool
  | .object _ => false
  | _ => true

/-- Number of dimensions, zero for a class. -/
def dimensions : RefType → Nat
  | .object _ => 0
  | .objectArray extra _ | .primitiveArray extra _ => extra + 1

/-- The array type with elements of the given type. -/
def array : FieldType → RefType
  | .base element => .primitiveArray 0 element
  | .ref (.object element) => .objectArray 0 element
  | .ref (.primitiveArray extra element) => .primitiveArray (extra + 1) element
  | .ref (.objectArray extra element) => .objectArray (extra + 1) element

/-- The type of the elements of an array type. -/
def element? : RefType → Option FieldType
  | .object _ => none
  | .primitiveArray 0 element => some (.base element)
  | .primitiveArray (extra + 1) element => some (.ref (.primitiveArray extra element))
  | .objectArray 0 element => some (.ref (.object element))
  | .objectArray (extra + 1) element => some (.ref (.objectArray extra element))

/-- Elements of an array type are what `array` was given. -/
@[simp]
theorem element?_array (t : FieldType) : (array t).element? = some t := by
  cases t with
  | base b => rfl
  | ref r => cases r <;> rfl

end RefType

namespace FieldType

/-- The type of whole numbers of 32 bits. -/
def int : FieldType := .base .int
/-- The type of whole numbers of 64 bits. -/
def long : FieldType := .base .long
/-- The type of floating point numbers of 32 bits. -/
def float : FieldType := .base .float
/-- The type of floating point numbers of 64 bits. -/
def double : FieldType := .base .double

/-- The type of references to instances of a class. -/
def object (name : ClassName) : FieldType := .ref (.object name)

/-- The type of arrays with elements of a type. -/
def array (t : FieldType) : FieldType := .ref (.array t)

/-- Words of a frame that a value takes. -/
def width : FieldType → Nat
  | .base t => t.width
  | .ref _ => 1

/-- The characters of the descriptor. -/
def chars : FieldType → List Char
  | .base t => [t.letter]
  | .ref t => t.chars

/-- The descriptor of the type. -/
def render (t : FieldType) : String := String.ofList t.chars

/-- The type as it is written in an instruction. -/
def describe : FieldType → String
  | .base t => s!"Base({t.describe})"
  | .ref t => s!"Ref({t.describe})"

end FieldType

/-- Items in brackets with commas between them. -/
def describeList {α : Type} (item : α → String) (xs : List α) : String :=
  "[" ++ ", ".intercalate (xs.map item) ++ "]"

/-- An optional item, with its absence spelled out. -/
def describeOption {α : Type} (item : α → String) : Option α → String
  | none => "None"
  | some x => s!"Some({item x})"

namespace MethodDescriptor

/-- The characters of the descriptor: the parameters in parentheses, then the result or `V`. -/
def chars (d : MethodDescriptor) : List Char :=
  '(' :: d.parameters.flatMap FieldType.chars ++
    ')' :: (match d.result with
      | none => ['V']
      | some t => t.chars)

/-- The descriptor of the method. -/
def render (d : MethodDescriptor) : String := String.ofList d.chars

/-- The descriptor as it is written in an instruction. -/
def describe (d : MethodDescriptor) : String :=
  let parameters := describeList FieldType.describe d.parameters
  let result := describeOption FieldType.describe d.result
  s!"MethodDescriptor \x7b parameters: {parameters}, return_type: {result} \x7d"

/-- Words of a frame that the parameters take, and one more for the receiver if there is one. -/
def parameterWords (d : MethodDescriptor) (hasReceiver : Bool) : Nat :=
  d.parameters.foldl (fun n t => n + t.width) (if hasReceiver then 1 else 0)

/-- Is some parameter of exactly this class? -/
def takes (d : MethodDescriptor) (c : ClassName) : Bool :=
  d.parameters.contains (.object c)

end MethodDescriptor

end Resumption
