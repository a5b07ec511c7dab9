import Resumption.Machine.Basic

/-!
# Recipes for values

Descriptions of values to be made on a machine. The contents of an object are made before the object
itself, and from left to right.
-/

namespace Resumption

/-- A description of a value. -/
inductive Recipe where
  /-- a value that is there already -/
  | value (v : Value)
  /-- the string object for a literal -/
  | string (s : String)
  /-- a continuation without states -/
  | continuation
  /-- a record of no monitors -/
  | lockState
  /-- an array with some elements -/
  | array (type : RefType) (items : List Recipe)
  /-- an instance with some fields -/
  | instance (owner : ClassName) (fields : List (MemberName × Recipe))
  /-- saved values, in arrays -/
  | data (ints longs floats doubles objects : Recipe)
deriving Repr, Inhabited

namespace Recipe

/-- The value for a new object. -/
def place (m : Machine) (o : HeapObject) : Value × Machine :=
  let (r, m) := m.alloc o
  (.ref r, m)

mutual

/-- The value, on the machine with its objects. -/
def make (m : Machine) : Recipe → Value × Machine
  | .value v => (v, m)
  | .string s =>
    let (r, m) := m.intern s
    (.ref r, m)
  | .continuation => place m (.continuation .empty)
  | .lockState => place m (.lockState .empty)
  | .array type items =>
    let (values, m) := makeAll m items
    place m (.array type values.toArray)
  | .instance owner fields =>
    let (fields, m) := makeFields m [] fields
    place m (.instance owner fields)
  | .data ints longs floats doubles objects =>
    let (ints, m) := make m ints
    let (longs, m) := make m longs
    let (floats, m) := make m floats
    let (doubles, m) := make m doubles
    let (objects, m) := make m objects
    place m (.data { ints, longs, floats, doubles, objects })

/-- The values of recipes, in order. -/
def makeAll (m : Machine) : List Recipe → List Value × Machine
  | [] => ([], m)
  | r :: rest =>
    let (v, m) := make m r
    let (values, m) := makeAll m rest
    (v :: values, m)

/-- The fields of an instance, in order; of two with one name the last counts. -/
def makeFields (m : Machine) (made : FieldValues) :
    List (MemberName × Recipe) → FieldValues × Machine
  | [] => (made, m)
  | (name, r) :: rest =>
    let (v, m) := make m r
    makeFields m (made.set name v) rest

end

end Recipe

end Resumption
