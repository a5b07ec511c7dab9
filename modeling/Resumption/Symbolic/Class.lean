import Resumption.Class.Basic
import Resumption.Symbolic.Code

/-!
# Classes as trees

Methods, fields, attributes and classes are records. Flags are numbers; bits without a meaning are
dropped when they are read.
-/

namespace Resumption

instance : ToTree MethodSummary where
  toTree s := .record [("name", s.name), ("desc", s.descriptor), ("id", s.id),
    ("version", s.version), ("points", s.points)]

instance : OfTree MethodSummary where
  ofTree t := do
    return { name := ← t.field "name", descriptor := ← t.field "desc", id := ← t.field "id"
             version := ← t.field "version", points := ← t.field "points" }

instance : ToTree Attribute where
  toTree
    | .sourceFile name => .record [("source", name)]
    | .instrumented methods => .record [("instrumented", methods)]
    | .unknown name data => .record [("unknown", name), ("data", data)]

instance : OfTree Attribute where
  ofTree t := do
    if t.mentions "source" then return .sourceFile (← t.field "source")
    else if t.mentions "instrumented" then return .instrumented (← t.field "instrumented")
    else return .unknown (← t.field "unknown") (← t.fieldD "data" [])

/-- The flags in a field of a record. -/
def FlagTable.ofField (table : FlagTable) (otherwise : Nat) (t : Tree) : Tree.Result Nat := do
  return table.known (← t.fieldD "flags" otherwise)

instance : ToTree Method where
  toTree m := .record [("name", m.name), ("desc", m.descriptor), ("flags", m.flags),
    ("annotations", m.annotations), ("code", m.code)]

instance : OfTree Method where
  ofTree t := do
    return { name := ← t.field "name", descriptor := ← t.field "desc"
             flags := ← methodFlags.ofField 0 t, annotations := ← t.field "annotations"
             code := ← t.field "code" }

instance : ToTree Field where
  toTree f := .record [("name", f.name), ("desc", f.type), ("flags", f.flags)]

instance : OfTree Field where
  ofTree t := do
    return { name := ← t.field "name", type := ← t.field "desc", flags := ← fieldFlags.ofField 0 t }

instance : ToTree Class where
  toTree c := .record [("name", c.name), ("super", c.superclass), ("interfaces", c.interfaces),
    ("flags", c.flags), ("fields", c.fields), ("methods", c.methods),
    ("attributes", c.attributes)]

/-- A class that does not mention a superclass is below the root class; one that names nothing has
none. -/
instance : OfTree Class where
  ofTree t := do
    return { name := ← t.field "name"
             superclass := ← if t.mentions "super" then t.field "super" else pure (some .object)
             interfaces := ← t.field "interfaces", flags := ← classFlags.ofField 1 t
             fields := ← t.field "fields", methods := ← t.field "methods"
             attributes := ← t.field "attributes" }

instance : ToTree TypeInfo where
  toTree info := .record [("name", info.name), ("super", info.superclass),
    ("interfaces", info.interfaces), ("is_interface", info.isInterface)]

end Resumption
