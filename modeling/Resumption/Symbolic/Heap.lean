import Resumption.Heap.Reachable
import Resumption.Symbolic.Code

/-!
# Heaps as trees

A value is a list of a letter for its kind and its content, or a word. An object is a list of the
word for its kind and its content. A heap is the list of its objects, each with its number.
-/

namespace Resumption

instance : ToTree Ref := ⟨fun r => .number r.index⟩
instance : OfTree Ref := ⟨fun t => Ref.mk <$> ofTree t⟩

/-! ## Values -/

/-- What is not a number is written as one word, whatever its bits. -/
instance : ToTree Value where
  toTree
    | .int n => .tagged "I" [n]
    | .long n => .tagged "J" [n]
    | .float bits =>
      .tagged "F" [if Number.Ieee.single.isNaN bits.toNat then .text "nan" else toTree bits]
    | .double bits =>
      .tagged "D" [if Number.Ieee.double.isNaN bits.toNat then .text "nan" else toTree bits]
    | .null => .text "null"
    | .ref r => .tagged "R" [r]
    | .top => .text "top"

/-- A value that refers to nothing on a heap; `none` for any other tree. -/
def Value.ofPlain? (t : Tree) : Tree.Result (Option Value) := do
  match t.tag with
  | "null" => return some .null
  | "top" => return some .top
  | "I" => return some (.int (← t.nth 1))
  | "J" => return some (.long (← t.nth 1))
  | "F" => return some (.float (← t.nth 1))
  | "D" => return some (.double (← t.nth 1))
  | _ => return none

/-! ## Objects -/

instance : ToTree Mode where
  toTree
    | .normal => .text "Normal"
    | .saving => .text "Saving"
    | .loading => .text "Loading"

instance {σ : Type} [ToTree σ] : ToTree (Continuation σ) where
  toTree c := .record [("mode", c.mode), ("saved", c.saved), ("first", c.first),
    ("next_load", c.nextLoad), ("next_unload", c.nextUnload),
    ("first_cutpoint", c.firstCutpoint), ("cutpoints", c.cutpoints)]

instance : ToTree HeapObject where
  toTree
    | .string s => .tagged "String" [s]
    | .instance owner fields => .tagged "Instance" [owner, fields]
    | .array type values => .tagged "Array" [type, values]
    | .continuation c => .tagged "Continuation" [c]
    | .methodState s =>
      .tagged "MethodState" [s.owner, s.id, s.version, s.point, s.lockState, s.locals, s.stack]
    | .data d => .tagged "Data" [d.toList]
    | .lockState l => .tagged "LockState" [l.monitors]
    | .printStream => .tagged "PrintStream" []

/-- Reads an object with a reader for values. Objects in which suspendable code keeps its state are
read as empty ones. -/
def HeapObject.ofItems (value : Tree → Tree.Result Value) (t : Tree) : Tree.Result HeapObject := do
  match t.tag with
  | "String" => return .string (← t.nth 1)
  | "Instance" =>
    let fields ← (t.item 2).each fun pair => do return (← pair.nth 0, ← value (pair.item 1))
    return .instance (← t.nth 1) (fields.foldl (fun known (name, v) => known.set name v) [])
  | "Array" => return .array (← t.nth 1) (← (t.item 2).each value).toArray
  | "PrintStream" => return .printStream
  | "Continuation" => return .continuation .empty
  | "LockState" => return .lockState .empty
  | "Data" => return .data default
  | "MethodState" => return .methodState default
  | _ => Tree.fail "an object"

/-- The objects that can be reached from these values, each with its number. -/
def Heap.toTree (heap : Array HeapObject) (roots : List Value) : Tree :=
  Heap.reachable heap (roots.filterMap Value.ref?)

end Resumption
