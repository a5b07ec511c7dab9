import Resumption.Instrument.Marker
import Resumption.Snapshot.Basic
import Resumption.Snapshot.Rules

/-!
# Loadable frames

A saved frame can be loaded if its class lists a suspendable method with the same id and version
that has the frame's point.
-/

namespace Resumption

/-- Can the method load frames with this key? -/
def MethodSummary.accepts (s : MethodSummary) (k : FrameKey) : Bool :=
  s.id = k.id && s.version = k.version && 0 ≤ k.point.toInt && k.point.toInt < s.points

/-- Can one of the classes load frames with this key? -/
def isLoadable (classes : List Class) (k : FrameKey) : Bool :=
  classes.any fun c => c.name.text = k.owner && c.summaries.any (·.accepts k)

end Resumption
