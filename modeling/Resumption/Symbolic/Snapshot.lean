import Resumption.Snapshot.Edit
import Resumption.Symbolic.Tree

/-!
# Snapshots as trees

A key is read as a list of its parts and written as the text that shows it. Frames and the data in
them are records; edits are tagged lists.
-/

namespace Resumption

instance : ToTree FrameKey := ⟨fun k => .text k.render⟩

instance : OfTree FrameKey where
  ofTree t := do
    return { owner := ← t.nth 0, id := ← t.nth 1, version := ← t.nth 2, point := ← t.nth 3 }

instance : OfTree FrameEdit where
  ofTree t := do
    match t.tag with
    | "key" => return .setKey (← t.nth 1)
    | "point" => return .setPoint (← t.nth 1)
    | "add_int" => return .addInt (← t.nth 1) (← t.nth 2)
    | "push_int" => return .pushInt (← t.nth 1)
    | "push_long" => return .pushLong (← t.nth 1)
    | "drop_monitors" => return .dropMonitors
    | "pop_object" => return .popObject
    | _ => Tree.fail "an edit"

section

variable {ω : Type}

/-- A rule is the key it is for and its edits. -/
instance : OfTree (FrameRule ω) where
  ofTree t := do return FrameEdit.rule (← t.nth 0) (← t.nth 1)

/-- Reads saved data with a reader for objects. -/
def SavedData.ofRecord (object : Tree → Tree.Result ω) (t : Tree) : Tree.Result (SavedData ω) := do
  return { ints := ← t.field "ints", longs := ← t.field "longs", floats := ← t.field "floats"
           doubles := ← t.field "doubles", objects := ← (t.get "objects").each object
           handles := ← t.field "handles" }

/-- Reads a saved frame with a reader for objects. -/
def SavedFrame.ofRecord (object : Tree → Tree.Result ω) (t : Tree) :
    Tree.Result (SavedFrame ω) := do
  return { key := ← t.field "key", monitors := ← (t.get "monitors").each object
           locals := ← SavedData.ofRecord object (t.get "locals")
           stack := ← SavedData.ofRecord object (t.get "stack") }

variable [ToTree ω]

instance : ToTree (SavedData ω) where
  toTree d := .record [("ints", d.ints), ("longs", d.longs), ("floats", d.floats),
    ("doubles", d.doubles), ("objects", d.objects), ("handles", d.handles)]

instance : ToTree (SavedFrame ω) where
  toTree f := .record [("key", f.key), ("monitors", f.monitors), ("locals", f.locals),
    ("stack", f.stack)]

instance : ToTree (VersionedFrame ω) := ⟨fun v => toTree v.representations⟩

end

end Resumption
