import Resumption.Machine.Basic

/-!
# Arrays on the heap

Allocation, and reading and writing elements. A negative length and an index outside of the array
raise exceptions.
-/

namespace Resumption.Run

/-- A new array with every element at its zero value. -/
def allocateArray (type : RefType) (count : Int32) : Run Ref := do
  if count < 0 then raise .negativeArraySizeException s!"{count.toInt}"
  match type.element? with
  | none => fail (.unsupported (.arrayOf type))
  | some element =>
    alloc (.array type (Array.replicate count.toInt.toNat (Value.zero element)))

/-- The elements of an array. -/
def elements (r : Ref) : Run (RefType × Array Value) := do
  match ← object r with
  | .array type values => return (type, values)
  | _ => fail (.badReference (.notArray (.ref r)))

/-- Raises the exception for an index outside of an array. -/
def outOfBounds {α : Type} (index : Int32) (length : Nat) : Run α :=
  raise .arrayIndexOutOfBoundsException
    s!"Index {index.toInt} out of bounds for length {length}"

/-- The position that an index stands for. -/
def position (index : Int32) (length : Nat) : Run Nat :=
  if 0 ≤ index && index.toInt < length then return index.toInt.toNat
  else outOfBounds index length

/-- The element at an index that is in range. -/
def arrayElement (array : Option Ref) (index : Int32) : Run Value := do
  let (_, values) ← elements (← nonNull array)
  return values.getD (← position index values.size) .null

/-- Writes the element at an index that is in range. -/
def setArrayElement (array : Option Ref) (index : Int32) (value : Value) : Run Unit := do
  let r ← nonNull array
  let (type, values) ← elements r
  let position ← position index values.size
  setObject r (.array type (values.setIfInBounds position value))

/-- `n` results of a computation, in order. -/
def repeated {α : Type} (run : Run α) : (n : Nat) → Run (List α)
  | 0 => return []
  | n + 1 => do return (← run) :: (← repeated run n)

/-- A new array of arrays, one dimension for each count. -/
def allocateArrays (type : RefType) : List Int32 → Run Ref
  | [] => fail (.unsupported .zeroDimensions)
  | [count] => allocateArray type count
  | count :: rest => do
    let r ← allocateArray type count
    match type.element? with
    | some (.ref inner) =>
      let arrays ← repeated (allocateArrays inner rest) count.toInt.toNat
      setObject r (.array type (arrays.map Value.ref).toArray)
      return r
    | _ => fail (.unsupported (.dimensions (rest.length + 1) type))

end Resumption.Run
