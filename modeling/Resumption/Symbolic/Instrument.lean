import Resumption.Instrument.Point
import Resumption.Instrument.Scratch
import Resumption.Symbolic.Class

/-!
# Plans of suspendable methods as trees

Places where a method may suspend, and scratch variables, as records.
-/

namespace Resumption

instance : ToTree PointKind where
  toTree
    | .suspend => .text "Suspend"
    | .invoke => .text "Invoke"

instance : ToTree SuspendPoint where
  toTree p := .record [("id", p.id), ("index", p.index), ("kind", p.kind), ("frame", p.frame),
    ("handlers", p.handlers)]

instance : ToTree Lease where
  toTree l := .record [("slot", l.slot), ("kind", l.kind.describe), ("generation", l.generation),
    ("load", l.load), ("store", l.store)]

end Resumption
