import Resumption.Coroutine.Continuation
import Resumption.Coroutine.LockState
import Resumption.Heap.Value
import Resumption.Name.WellKnown

/-!
# Objects

Objects on the heap: strings, instances, arrays, the objects in which suspendable code keeps its
state, and the stream that text is printed on.
-/

namespace Resumption

/-- The saved state of one activation of a suspendable method. -/
structure MethodState where
  /-- name of the class that the method belongs to -/
  owner : String
  /-- which method of its class it is -/
  id : Int32
  /-- the version of its body -/
  version : Int32
  /-- where it has stopped -/
  point : Int32
  /-- a lock state, or null -/
  lockState : Value
  /-- a data object, or null -/
  locals : Value
  /-- a data object, or null -/
  stack : Value
deriving DecidableEq, Repr, Inhabited

/-- Saved values by kind: for each kind an array, or null if there are none. -/
structure DataArrays where
  /-- the array of saved numbers of kind int -/
  ints : Value
  /-- the array of saved numbers of kind long -/
  longs : Value
  /-- the array of saved numbers of kind float -/
  floats : Value
  /-- the array of saved numbers of kind double -/
  doubles : Value
  /-- the array of saved references -/
  objects : Value
deriving DecidableEq, Repr, Inhabited

namespace DataArrays

/-- The array for a kind. -/
def ofKind (d : DataArrays) : ValueKind → Value
  | .int => d.ints
  | .long => d.longs
  | .float => d.floats
  | .double => d.doubles
  | .object => d.objects

/-- All arrays, in the order of `ValueKind.all`. -/
def toList (d : DataArrays) : List Value := ValueKind.all.map d.ofKind

end DataArrays

/-- The fields of an instance, in increasing order of their names. -/
abbrev FieldValues := List (MemberName × Value)

namespace FieldValues

/-- The value of a field. -/
def get? (fields : FieldValues) (name : MemberName) : Option Value := fields.lookup name

/-- Sets a field. -/
def set (fields : FieldValues) (name : MemberName) (value : Value) : FieldValues :=
  match fields with
  | [] => [(name, value)]
  | (other, old) :: rest =>
    if name.lt other then (name, value) :: (other, old) :: rest
    else if name = other then (name, value) :: rest
    else (other, old) :: set rest name value

/-- Sets a field that is not there yet. -/
def setNew (fields : FieldValues) (name : MemberName) (value : Value) : FieldValues :=
  if (get? fields name).isSome then fields else set fields name value

end FieldValues

/-- An object on the heap. -/
inductive HeapObject where
  /-- a text -/
  | string (s : String)
  /-- an instance with the fields that were written -/
  | instance (owner : ClassName) (fields : FieldValues)
  /-- an array -/
  | array (type : RefType) (values : Array Value)
  /-- the continuation of a coroutine -/
  | continuation (c : Continuation Ref)
  /-- a saved activation -/
  | methodState (s : MethodState)
  /-- saved values -/
  | data (d : DataArrays)
  /-- the record of the monitors of an activation -/
  | lockState (l : LockState Ref)
  /-- the standard stream -/
  | printStream
deriving DecidableEq, Repr, Inhabited

/-- The type of an object at run time. -/
def HeapObject.type : HeapObject → RefType
  | .string _ => .object .string
  | .instance owner _ => .object owner
  | .array type _ => type
  | .continuation _ => .object .continuation
  | .methodState _ => .object .methodState
  | .data _ => .object .data
  | .lockState _ => .object .lockState
  | .printStream => .object .printStream

end Resumption
