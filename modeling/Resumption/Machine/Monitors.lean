import Resumption.Heap.Value

/-!
# Held monitors

The monitors that the machine holds, in the order in which they were first entered, each with the
number of times it was entered.
-/

namespace Resumption

/-- Held monitors with their counts. -/
abbrev Monitors := List (Ref × Nat)

namespace Monitors

/-- Enters a monitor: once more if it is held, at the end of the table otherwise. -/
def enter : Monitors → Ref → Monitors
  | [], r => [(r, 1)]
  | (held, count) :: rest, r =>
    if held = r then (held, count + 1) :: rest else (held, count) :: enter rest r

/-- Leaves a monitor once; `none` if it is not held. -/
def exit? : Monitors → Ref → Option Monitors
  | [], _ => none
  | (held, count) :: rest, r =>
    if held = r then some (if count = 1 then rest else (held, count - 1) :: rest)
    else (exit? rest r).map ((held, count) :: ·)

/-- The monitors without their counts. -/
def held (m : Monitors) : List Ref := m.map (·.1)

end Monitors

end Resumption
