import Resumption.Class.Basic
import Resumption.Digest.Sha1
import Resumption.Text.Utf8

/-!
# Marks of suspendable classes

A class that was made suspendable says so in an attribute, which lists its suspendable methods. A
method's **id** depends on its name and descriptor only, its **version** on its body; both are the
first four bytes of a digest.
-/

namespace Resumption

/-- The first four bytes of the digest of a text. -/
def digestWord (s : String) : Int32 :=
  (Digest.Sha1.digest (Text.Utf8.encode s)).a.toInt32

/-- Identity of a method; it stays when the body changes. -/
def Method.id (m : Method) : Int32 := digestWord m.signature

/-- Identity of a body; it changes when the body changes. -/
def Code.version (c : Code) : Int32 := digestWord c.describe

namespace Class

/-- The suspendable methods that an attribute lists. -/
def summariesOf : Attribute → Option (List MethodSummary)
  | .instrumented methods => some methods
  | _ => none

/-- Was the class made suspendable? -/
def isMarked (c : Class) : Bool := c.attributes.any fun a => (summariesOf a).isSome

/-- All suspendable methods that the class lists. -/
def summaries (c : Class) : List MethodSummary :=
  c.attributes.flatMap fun a => (summariesOf a).getD []

/-- Was this method of the class made suspendable? -/
def isMethodMarked (c : Class) (m : Method) : Bool :=
  c.summaries.any fun s => m.isNamed s.name s.descriptor

/-- Adds to the first list of suspendable methods among the attributes, or adds such a list. -/
def markAttributes (methods : List MethodSummary) : List Attribute → List Attribute
  | [] => [.instrumented methods]
  | .instrumented existing :: rest => .instrumented (existing ++ methods) :: rest
  | a :: rest => a :: markAttributes methods rest

/-- Records suspendable methods; the class is marked even if there are none. -/
def mark (c : Class) (methods : List MethodSummary) : Class :=
  { c with attributes := markAttributes methods c.attributes }

end Class

end Resumption
