import Resumption.Class.Basic
import Resumption.Coroutine.Interface

/-!
# Which calls may suspend

A policy decides which calls may suspend the coroutine; a call of `suspend` itself always may.

* **By parameter**: calls of methods that take a continuation.
* **By reach**: calls of methods from which a chain of calls, inside a unit of classes, leads to
  `suspend` or to a method that carries the annotation for suspendable methods.
-/

namespace Resumption

/-- Is this the method that suspends? -/
def MethodRef.isSuspend (m : MethodRef) : Bool := m = Interface.Continuation.suspend

/-- Which calls may suspend. -/
inductive SuspendPolicy where
  /-- methods that take a continuation -/
  | byParameter
  /-- the methods on a list -/
  | byReach (suspendable : List MethodRef)
deriving Repr, Inhabited

namespace SuspendPolicy

/-- May a call of this method suspend? -/
def admits : SuspendPolicy → MethodRef → Bool
  | .byParameter, m => m.isSuspend || m.descriptor.takes .continuation
  | .byReach suspendable, m => m.isSuspend || suspendable.contains m

/-- The methods of a unit, each with its code. -/
def unitMethods (classes : List Class) : List (MethodRef × Method) :=
  classes.flatMap fun c => c.methods.map fun m => (⟨c.name, m.name, m.descriptor⟩, m)

/-- Does the method call `suspend`, or one of these methods? -/
def calls (suspendable : List MethodRef) (m : Method) : Bool :=
  match m.code with
  | none => false
  | some c => c.has fun
    | .invoke _ callee => callee.isSuspend || suspendable.contains callee
    | _ => false

/-- Adds the methods that call one that is in already. -/
def grow (methods : List (MethodRef × Method)) (suspendable : List MethodRef) : List MethodRef :=
  methods.foldl (fun found (ref, m) =>
    if found.contains ref then found
    else if calls found m then ref :: found
    else found) suspendable

/-- Grows the set until it stays the same. Each round but the last adds a method, so a round for
each method and one more are enough. -/
def closure (methods : List (MethodRef × Method)) :
    (rounds : Nat) → List MethodRef → List MethodRef
  | 0, suspendable => suspendable
  | rounds + 1, suspendable =>
    let grown := grow methods suspendable
    if grown.length = suspendable.length then suspendable else closure methods rounds grown

/-- The policy by reach for a unit of classes. -/
def ofUnit (classes : List Class) : SuspendPolicy :=
  let methods := unitMethods classes
  let annotated := (methods.filter (·.2.annotations.contains .suspendable)).map (·.1)
  .byReach (closure methods (methods.length + 1) annotated)

end SuspendPolicy

end Resumption
