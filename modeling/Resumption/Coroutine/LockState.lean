/-!
# Lock states

The monitors that one activation holds, oldest first. A monitor that was entered twice is there
twice, and leaving it removes its most recent entry.
-/

namespace Resumption

/-- The monitors that an activation holds. -/
structure LockState (ω : Type) where
  /-- the monitors that are held, the first one first; once for each time -/
  monitors : List ω
deriving DecidableEq, Repr, Inhabited

namespace LockState

variable {ω : Type}

/-- No monitors. -/
def empty : LockState ω := ⟨[]⟩

/-- Records that a monitor was entered. -/
def enter (l : LockState ω) (monitor : ω) : LockState ω := ⟨l.monitors ++ [monitor]⟩

/-- Removes the most recent entry of a monitor; `none` if it is not held. -/
def exit? [DecidableEq ω] (l : LockState ω) (monitor : ω) : Option (LockState ω) :=
  if l.monitors.contains monitor then some ⟨(l.monitors.reverse.erase monitor).reverse⟩ else none

end LockState

end Resumption
