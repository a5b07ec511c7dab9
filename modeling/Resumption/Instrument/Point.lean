import Resumption.Analysis.Basic
import Resumption.Instrument.Policy

/-!
# Places where a method may suspend

The calls in a body that may suspend. Those that can be reached are numbered in code order, and each
knows the frame before the call and the handlers around it.
-/

namespace Resumption

/-- How execution goes on at a point. -/
inductive PointKind where
  /-- a call of `suspend`, which generated code takes the place of -/
  | suspend
  /-- a call of a method that may suspend, which is entered again when loading -/
  | invoke
deriving DecidableEq, Repr, Inhabited

/-- A reachable call that may suspend. -/
structure SuspendPoint where
  /-- its number, from 0 on -/
  id : Nat
  /-- index of the call in the body -/
  index : Nat
  /-- what is called there -/
  kind : PointKind
  /-- frame before the call -/
  frame : Frame
  /-- indexes of the handlers that cover the call -/
  handlers : List Nat
deriving DecidableEq, Repr, Inhabited

/-- The calls in a body that may suspend, with their indexes. -/
def suspendCalls (policy : SuspendPolicy) (c : Code) : List (Nat × MethodRef) :=
  c.instructions.toList.zipIdx.filterMap fun
    | (.invoke _ m, index) => if policy.admits m then some (index, m) else none
    | _ => none

/-- The slot of the first continuation among parameters that start at `slot`. -/
def continuationSlotFrom? (slot : Nat) : List FieldType → Option Nat
  | [] => none
  | t :: rest =>
    if t = .object .continuation then if slot < 0x10000 then some slot else none
    else continuationSlotFrom? (slot + t.width) rest

/-- The slot of the first continuation parameter. -/
def Method.continuationSlot? (m : Method) : Option Nat :=
  continuationSlotFrom? (if m.isStatic then 0 else 1) m.descriptor.parameters

/-- Has the method a continuation, or calls that may suspend? -/
def Method.isCandidate (policy : SuspendPolicy) (m : Method) : Bool :=
  m.continuationSlot?.isSome ||
    (match m.code with
      | none => false
      | some c => !(suspendCalls policy c).isEmpty)

/-- The reachable calls of an analyzed body that may suspend. -/
def suspendPoints (policy : SuspendPolicy) (c : Code) (a : Analysis) : List SuspendPoint :=
  let reachable := (suspendCalls policy c).filterMap fun (index, m) =>
    (a.frames.getD index none).map fun frame => (index, m, frame)
  reachable.zipIdx.map fun ((index, m, frame), id) =>
    { id, index, frame
      kind := if m.isSuspend then .suspend else .invoke
      handlers := a.covering.getD index [] }

end Resumption
