import Resumption.Heap.Object

/-!
# Reachable objects

The objects that can be reached from given roots through the references that objects hold.
-/

namespace Resumption

/-- The objects that an object refers to. -/
def HeapObject.refs : HeapObject → List Ref
  | .string _ | .printStream => []
  | .instance _ fields => fields.filterMap (·.2.ref?)
  | .array _ values => values.toList.filterMap Value.ref?
  | .continuation c => c.saved ++ c.cutpoints
  | .methodState s => [s.lockState, s.locals, s.stack].filterMap Value.ref?
  | .data d => d.toList.filterMap Value.ref?
  | .lockState l => l.monitors

namespace Heap

/-- Marks the references that are not marked yet, and puts them on the list of those to visit. -/
def enlist (marked : Array Bool) (toVisit : List Ref) : List Ref → Array Bool × List Ref
  | [] => (marked, toVisit)
  | r :: rest =>
    if marked.getD r.index true then enlist marked toVisit rest
    else enlist (marked.setIfInBounds r.index true) (r :: toVisit) rest

/-- Visits objects until none is left. Each object is put on the list once, so as many rounds as
there are objects, and one to find the list empty, are enough. -/
def visit (heap : Array HeapObject) : (rounds : Nat) → Array Bool → List Ref → Array Bool
  | 0, marked, _ => marked
  | _, marked, [] => marked
  | rounds + 1, marked, r :: rest =>
    let refs := (heap[r.index]?.map HeapObject.refs).getD []
    let (marked, toVisit) := enlist marked rest refs
    visit heap rounds marked toVisit

/-- The objects that can be reached from the roots, in the order of the heap. -/
def reachable (heap : Array HeapObject) (roots : List Ref) : List (Ref × HeapObject) :=
  let (marked, toVisit) := enlist (Array.replicate heap.size false) [] roots
  let marked := visit heap (heap.size + 1) marked toVisit
  heap.toList.zipIdx.filterMap fun (o, index) =>
    if marked.getD index false then some (⟨index⟩, o) else none

end Heap

end Resumption
