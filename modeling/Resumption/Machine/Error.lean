import Resumption.Analysis.Error
import Resumption.Coroutine.Continuation
import Resumption.Heap.Value
import Resumption.Snapshot.Error

/-!
# Failures of the machine

A failure ends a run and cannot be caught, unlike an exception that code throws. The causes are kept
apart by what is at fault: a feature that is missing, a reference, the code, or the coroutine.
-/

namespace Resumption

/-- Features that the machine does not run. -/
inductive MissingFeature where
  /-- a constant that has no object here -/
  | constant (c : Constant)
  /-- `suspend` was called by code that was not made suspendable -/
  | suspendCall
  /-- an array of a type that is none -/
  | arrayOf (type : RefType)
  /-- an array without dimensions -/
  | zeroDimensions
  /-- an array with more dimensions than its type has -/
  | dimensions (count : Nat) (type : RefType)
  /-- a dynamic call -/
  | dynamicCall
  /-- a subroutine that was not inlined -/
  | subroutine
deriving DecidableEq, Repr

/-- Faults in references and in what they refer to. -/
inductive ReferenceFault where
  /-- there is no such object -/
  | notOnHeap (r : Ref)
  /-- the object is not a string -/
  | notString (r : Ref)
  /-- the value is not an array -/
  | notArray (v : Value)
  /-- the object is not a continuation -/
  | notContinuation (r : Ref)
  /-- the object is not a saved state -/
  | notMethodState (r : Ref)
  /-- the value does not refer to saved values -/
  | notData (v : Value)
  /-- the object is not a record of monitors -/
  | notLockState (r : Ref)
  /-- the object has no fields -/
  | noFields (r : Ref)
  /-- the object cannot be thrown -/
  | notThrowable (r : Ref)
  /-- a native method gets too few arguments -/
  | missingArgument (index : Nat)
  /-- a number of kind int was expected -/
  | notInt (v : Value)
  /-- a reference was expected -/
  | notReference (v : Value)
  /-- the entry point is called on something else than an instance -/
  | notInstance (r : Ref)
  /-- the handle no longer refers to a continuation -/
  | continuationReplaced
  /-- there is no state with the index -/
  | noSavedState (index : Nat)
  /-- something else than a saved state was saved -/
  | unexpectedSaved (v : Value)
  /-- a snapshot whose payload is not an object -/
  | payloadNotObject
deriving DecidableEq, Repr

/-- Faults in code, all of which checking it would have found. -/
inductive CodeFault where
  /-- there is no operand left -/
  | stackUnderflow
  /-- a value of another kind was wanted, described in words -/
  | unexpected (wanted : String) (found : Value)
  /-- a wide value would be split -/
  | splitWide
  /-- the variable holds nothing -/
  | uninitializedLocal (slot : Nat)
  /-- the variable does not hold a number of kind int -/
  | incrementOf (v : Value)
  /-- a call with too few operands -/
  | missingArguments
  /-- control is past the last instruction -/
  | ranOff
  /-- the label is not placed -/
  | unplacedTarget (l : Label)
deriving DecidableEq, Repr

/-- Failures of the machine. -/
inductive RunError where
  /-- something that the machine does not do -/
  | unsupported (feature : MissingFeature)
  /-- there is no such method -/
  | noSuchMethod (name : String)
  /-- a reference does not lead to what is asked for -/
  | badReference (fault : ReferenceFault)
  /-- an instruction cannot be executed -/
  | badCode (method : String) (index : Nat) (fault : CodeFault)
  /-- an exception that left the outermost call -/
  | uncaught (owner : ClassName) (message : Option String)
  /-- too many nested calls -/
  | stackOverflow (limit : Nat)
  /-- an activation took more steps than the machine allows -/
  | stepLimit (limit : Nat)
  /-- saved states cannot be loaded -/
  | continuation (e : ContinuationError)
  /-- a body whose labels are not placed once -/
  | code (e : CodeError)
  /-- a snapshot cannot be written or read -/
  | snapshot (e : SnapshotError)
deriving DecidableEq, Repr

/-- What is reported when code asks for something that there is not. -/
def MissingFeature.message : MissingFeature → String
  | .constant c => s!"ldc {c.describe}"
  | .suspendCall => "suspend() called from uninstrumented code"
  | .arrayOf type => s!"array of {type.describe}"
  | .zeroDimensions => "zero dimension array"
  | .dimensions count type => s!"{count} dimensions for {type.describe}"
  | .dynamicCall => "invokedynamic"
  | .subroutine => "subroutines"

namespace ReferenceFault

/-- A value as it stands in messages: the object itself if it is a reference. -/
def subject : Value → String
  | .ref r => r.describe
  | v => v.describe

/-- What is reported when a reference does not lead to what is asked for. -/
def message : ReferenceFault → String
  | .notOnHeap r => s!"{r.describe} is not on the heap"
  | .notString r => s!"{r.describe} is not a string"
  | .notArray v => s!"{subject v} is not an array"
  | .notContinuation r => s!"{r.describe} is not a continuation"
  | .notMethodState r => s!"{r.describe} is not a method state"
  | .notData v => s!"{subject v} is not a data object"
  | .notLockState r => s!"{r.describe} is not a lock state"
  | .noFields r => s!"{r.describe} has no fields"
  | .notThrowable r => s!"{r.describe} thrown but not a throwable"
  | .missingArgument index => s!"missing argument {index}"
  | .notInt v => s!"expected int, found {v.describe}"
  | .notReference v => s!"expected reference, found {v.describe}"
  | .notInstance r => s!"coroutine {r.describe} is not an instance"
  | .continuationReplaced => "continuation was replaced"
  | .noSavedState index => s!"no saved state {index}"
  | .unexpectedSaved v => s!"unexpected {v.describe} in saved data"
  | .payloadNotObject => "snapshot payload is not an object"

end ReferenceFault

/-- What is reported when code does what no checked code does. -/
def CodeFault.message : CodeFault → String
  | .stackUnderflow => "operand stack underflow"
  | .unexpected wanted found => s!"expected {wanted}, found {found.describe}"
  | .splitWide => "stack manipulation splits a long or double"
  | .uninitializedLocal slot => s!"local {slot} is not initialized"
  | .incrementOf v => s!"iinc on {v.describe}"
  | .missingArguments => "not enough arguments on the stack"
  | .ranOff => "execution ran off the end of the code"
  | .unplacedTarget l => s!"jump to unplaced {l.describe}"

/-- The wording of a failure. -/
def RunError.message : RunError → String
  | .unsupported feature => s!"unsupported: {feature.message}"
  | .noSuchMethod name => s!"no such method {name}"
  | .badReference fault => s!"bad reference: {fault.message}"
  | .badCode method index fault => s!"{method} at instruction {index}: {fault.message}"
  | .uncaught owner (some message) => s!"uncaught {owner.text}: {message}"
  | .uncaught owner none => s!"uncaught {owner.text}"
  | .stackOverflow limit => s!"call depth exceeded {limit}"
  | .stepLimit limit => s!"step count exceeded {limit}"
  | .continuation e => s!"runtime: {e.message}"
  | .code e => e.message
  | .snapshot e => s!"snapshot: {e.message}"

end Resumption
