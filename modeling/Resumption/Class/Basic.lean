import Resumption.Class.Access
import Resumption.Code.Basic

/-!
# Classes

A class with its fields, methods and attributes. One attribute matters here: the list of methods
that were made suspendable, each with its identity, its version and the number of places where it
may suspend (`MethodSummary`).
-/

namespace Resumption

/-- A field. -/
structure Field where
  /-- how it is called -/
  name : MemberName
  /-- what it holds -/
  type : FieldType
  /-- its access flags -/
  flags : Nat
deriving DecidableEq, Repr, Inhabited

/-- Whether the field belongs to the class and not to its instances. -/
def Field.isStatic (f : Field) : Bool := hasFlag f.flags staticFlag

/-- What a class records about one of its suspendable methods. -/
structure MethodSummary where
  /-- how the method is called -/
  name : MemberName
  /-- what it takes and gives -/
  descriptor : MethodDescriptor
  /-- which method of its class it is -/
  id : Int32
  /-- a digest of its body -/
  version : Int32
  /-- how many points it has -/
  points : Nat
deriving DecidableEq, Repr, Inhabited

/-- Attributes of a class. -/
inductive Attribute where
  /-- where the class was compiled from -/
  | sourceFile (name : String)
  /-- what was made suspendable -/
  | instrumented (methods : List MethodSummary)
  /-- any other attribute, as it is -/
  | unknown (name : String) (data : List UInt8)
deriving DecidableEq, Repr, Inhabited

/-- A method; an abstract one has no code. -/
structure Method where
  /-- how it is called -/
  name : MemberName
  /-- what it takes and gives -/
  descriptor : MethodDescriptor
  /-- its access flags -/
  flags : Nat
  /-- the types of its annotations -/
  annotations : List ClassName
  /-- absent in abstract and native methods -/
  code : Option Code
deriving DecidableEq, Repr, Inhabited

namespace Method

/-- Whether the method is called without a receiver. -/
def isStatic (m : Method) : Bool := hasFlag m.flags staticFlag

/-- Whether the method initializes instances. -/
def isConstructor (m : Method) : Bool := m.name = .init

/-- Does the method have this name and descriptor? -/
def isNamed (m : Method) (name : MemberName) (descriptor : MethodDescriptor) : Bool :=
  m.name = name && m.descriptor = descriptor

/-- Name and descriptor in one text. -/
def signature (m : Method) : String := m.name.text ++ m.descriptor.render

end Method

/-- A class or interface. -/
structure Class where
  /-- how it is called -/
  name : ClassName
  /-- the class it extends, if it is not the root -/
  superclass : Option ClassName
  /-- what it implements -/
  interfaces : List ClassName
  /-- its access flags -/
  flags : Nat
  /-- its fields -/
  fields : List Field
  /-- its methods -/
  methods : List Method
  /-- what else is written in its file -/
  attributes : List Attribute
deriving DecidableEq, Repr, Inhabited

namespace Class

/-- Whether the class is an interface. -/
def isInterface (c : Class) : Bool := hasFlag c.flags interfaceFlag

/-- The method of this class with this name and descriptor. -/
def method? (c : Class) (name : MemberName) (descriptor : MethodDescriptor) : Option Method :=
  c.methods.find? (·.isNamed name descriptor)

/-- The facts about a class. -/
def typeInfo (c : Class) : TypeInfo where
  name := c.name
  superclass := c.superclass
  interfaces := c.interfaces
  isInterface := c.isInterface

end Class

/-- The facts about some classes; of two with one name the later counts. -/
def Hierarchy.ofClasses (classes : List Class) : Hierarchy :=
  ⟨(classes.map Class.typeInfo).reverse⟩

/-! ## Agreement

Two bodies agree if they are equal with floating point constants compared as numbers: the two zeros
are the same constant, and what is not a number differs from everything. -/

namespace Instruction

/-- Constants agree as numbers do, so a pattern that is not a number does not agree with itself. -/
def agrees : Instruction → Instruction → Bool
  | .pushFloat a, .pushFloat b => Number.Ieee.single.compare? a.toNat b.toNat == some .eq
  | .pushDouble a, .pushDouble b => Number.Ieee.double.compare? a.toNat b.toNat == some .eq
  | i, j => i = j

end Instruction

/-- Bodies agree if their instructions do and all else is equal. -/
def Code.agrees (c d : Code) : Bool :=
  c.instructions.size = d.instructions.size &&
  (c.instructions.zip d.instructions).all (fun (i, j) => i.agrees j) &&
  { c with instructions := #[] } = { d with instructions := #[] }

/-- Methods agree if their bodies do and all else is equal. -/
def Method.agrees (m n : Method) : Bool :=
  (match m.code, n.code with
    | some c, some d => c.agrees d
    | none, none => true
    | _, _ => false) &&
  { m with code := none } = { n with code := none }

/-- Classes agree if their methods do, one by one, and all else is equal. -/
def Class.agrees (c d : Class) : Bool :=
  c.methods.length = d.methods.length &&
  (c.methods.zip d.methods).all (fun (m, n) => m.agrees n) &&
  { c with methods := [] } = { d with methods := [] }

end Resumption
