import Resumption.Descriptor.Basic

/-!
# The type hierarchy

All that checking code needs to know about a class: its superclass, its interfaces and whether it is
an interface itself (`TypeInfo`). A hierarchy is a finite list of such facts in order of priority:
of two facts about one class the first wins, so sources combine by concatenation.
-/

namespace Resumption

/-- Super types of a class or interface. Only the root class has no superclass. -/
structure TypeInfo where
  /-- how it is called -/
  name : ClassName
  /-- the class it extends; only the root extends none -/
  superclass : Option ClassName
  /-- the interfaces it implements, in order -/
  interfaces : List ClassName
  /-- whether it is an interface itself -/
  isInterface : Bool
deriving DecidableEq, Repr, Inhabited

/-- Superclass and interfaces together. -/
def TypeInfo.supers (info : TypeInfo) : List ClassName := info.superclass.toList ++ info.interfaces

/-- Known classes, in order of priority. -/
structure Hierarchy where
  /-- what is known, the first of a name counts -/
  types : List TypeInfo
deriving Repr, Inhabited

/-- A class that a question needs and the hierarchy does not know. -/
structure MissingClass where
  /-- how it is called -/
  name : ClassName
deriving DecidableEq, Repr

/-- Answers that may fail for want of a class. -/
abbrev Known := Except MissingClass

namespace Hierarchy

/-- What is known about a class. -/
def lookup (h : Hierarchy) (name : ClassName) : Option TypeInfo :=
  h.types.find? (·.name == name)

/-- What is known about a class that has to be known. -/
def typeInfo (h : Hierarchy) (name : ClassName) : Known TypeInfo :=
  match h.lookup name with
  | some info => .ok info
  | none => .error ⟨name⟩

/-- The facts of the first, then those of the second. -/
def orElse (h k : Hierarchy) : Hierarchy := ⟨h.types ++ k.types⟩

end Hierarchy

end Resumption
