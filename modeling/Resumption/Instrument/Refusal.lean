import Resumption.Analysis.Error

/-!
# Refusals

Why a method cannot be made suspendable. A refusal names the method, and its cause decides who is to
blame: the generator itself (`internal`), the way it was set up (`configuration`), or the method
(`input`).
-/

namespace Resumption

/-- Causes for which a method cannot be made suspendable. -/
inductive RefusalCause where
  /-- a call whose target is only known when it is made -/
  | dynamicCallSite
  /-- a constructor that may suspend -/
  | constructor
  /-- calls that may suspend, but no continuation to save into -/
  | noContinuation
  /-- an object that is not initialized is live at the call with this index -/
  | uninitialized (index : Nat)
  /-- a class that has to be known is not -/
  | missingClass (name : ClassName)
  /-- generated code is at fault -/
  | internal (e : CodeError)
  /-- the body cannot be analyzed -/
  | analysis (e : CodeError)
deriving DecidableEq, Repr

/-- Why a method cannot be made suspendable. -/
structure Refusal where
  /-- class and signature of the method -/
  method : String
  /-- what is wrong -/
  cause : RefusalCause
deriving DecidableEq, Repr

/-- Who is to blame for a refusal. -/
inductive Blame where
  /-- generated code, which should be right -/
  | internal
  /-- the classes that are known -/
  | configuration
  /-- the method as written -/
  | input
deriving DecidableEq, Repr

namespace RefusalCause

/-- The cause behind an error in the body of a method. -/
def ofAnalysis (e : CodeError) : RefusalCause :=
  match e with
  | .missingClass name => .missingClass name
  | e => if e.isInternal then .internal e else .analysis e

/-- The cause behind an error in generated code, which is sound unless a class is missing. -/
def ofGenerated : CodeError → RefusalCause
  | .missingClass name => .missingClass name
  | e => .internal e

/-- Whose fault it is: the input's, the configuration's, or that of the generated code. -/
def blame : RefusalCause → Blame
  | .internal _ => .internal
  | .missingClass _ => .configuration
  | _ => .input

/-- What is reported about a method that cannot be made suspendable. -/
def message : RefusalCause → String
  | .dynamicCallSite => "dynamic call-sites are not allowed"
  | .constructor => "instrumentation of constructors not allowed"
  | .noContinuation => "continuation points found but no continuation parameter"
  | .uninitialized index => s!"uninitialized object live at continuation point {index}"
  | .missingClass name => s!"class {name.text} is not in the type hierarchy"
  | .internal e => s!"internal instrumentation error: {e.message}"
  | .analysis e => e.message

end RefusalCause

/-- The wording of a refusal. -/
def Refusal.message (r : Refusal) : String := s!"{r.method}: {r.cause.message}"

end Resumption
