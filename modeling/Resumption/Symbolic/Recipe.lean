import Resumption.Machine.Recipe
import Resumption.Symbolic.Heap

/-!
# Recipes as trees

A recipe is a plain value, or a tagged list of what the object is made from. A list with the word
`V` and a name is the value that the name stands for.
-/

namespace Resumption.Recipe

variable (known : List (String × Value))

mutual

/-- The recipe that a tree stands for. -/
def ofTree : Tree → Tree.Result Recipe
  | .list [.text "S", s] => do return .string (← Resumption.ofTree s)
  | .list [.text "Continuation"] => .ok .continuation
  | .list [.text "LockState"] => .ok .lockState
  | .list [.text "PrintStream"] => .ok (.value (.ref Machine.printStream))
  | .list [.text "Array", type, .list items] => do
    return .array (← Resumption.ofTree type) (← ofTrees items)
  | .list [.text "Instance", owner, .list fields] => do
    return .instance (← Resumption.ofTree owner) (← ofFields fields)
  | .list [.text "Data", .list [ints, longs, floats, doubles, objects]] => do
    return .data (← ofTree ints) (← ofTree longs) (← ofTree floats) (← ofTree doubles)
      (← ofTree objects)
  | .list [.text "V", .text name] =>
    match known.lookup name with
    | some v => .ok (.value v)
    | none => Tree.fail "a name with a value"
  | t => do
    match ← Value.ofPlain? t with
    | some v => return .value v
    | none => Tree.fail "a recipe"

/-- The recipes that trees stand for. -/
def ofTrees : List Tree → Tree.Result (List Recipe)
  | [] => .ok []
  | t :: rest => do return (← ofTree t) :: (← ofTrees rest)

/-- Recipes for the fields of an instance. -/
def ofFields : List Tree → Tree.Result (List (MemberName × Recipe))
  | [] => .ok []
  | .list [name, t] :: rest => do
    return (← Resumption.ofTree name, ← ofTree t) :: (← ofFields rest)
  | _ :: _ => Tree.fail "a field"

end

end Resumption.Recipe
