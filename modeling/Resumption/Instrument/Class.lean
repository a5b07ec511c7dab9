import Resumption.Analysis.StackMap
import Resumption.Instrument.Emit
import Resumption.Instrument.Marker
import Resumption.Instrument.Refusal
import Resumption.Subroutine.Inline

/-!
# Suspendable methods and classes

A method is made suspendable if it takes a continuation and a call that may suspend can be reached
in its body. All other methods stay as they are, except that some are refused:

* **`makeSuspendable`** does this for one method, given a hierarchy;
* **`suspendableClass`** does it for each method of a class and marks the class if there was one. A
  marked class stays as it is, so doing it again changes nothing.
-/

namespace Resumption

/-- A suspendable method, and what its class records about it. -/
structure SuspendableMethod where
  /-- the method with generated code -/
  method : Method
  /-- what the class says about it -/
  summary : MethodSummary
deriving DecidableEq, Repr

/-- The body of a candidate without subroutines, with its analysis and its points. -/
def planMethod (policy : SuspendPolicy) (h : Hierarchy) (owner : ClassName) (m : Method)
    (c : Code) (continuationSlot : Nat) : Except CodeError MethodPlan := do
  let code ← Subroutine.inline c
  let analysis ← analyzeCode h owner m.name m.descriptor m.isStatic code
  return { owner, method := m, code, analysis
           points := suspendPoints policy code analysis
           continuationSlot
           id := m.id
           version := code.version }

/-- The method with generated code, limits and stack map. -/
def MethodPlan.generate (settings : Settings) (h : Hierarchy) (plan : MethodPlan) :
    Except CodeError SuspendableMethod := do
  let code ← suspendableCode settings plan
  let method ← withMetadata h plan.owner { plan.method with code := some code }
  return { method
           summary :=
            { name := plan.method.name
              descriptor := plan.method.descriptor
              id := plan.id
              version := plan.version
              points := plan.points.length } }

/-- Why a candidate is refused before its body is looked at closely. -/
def refusal? (policy : SuspendPolicy) (m : Method) (c : Code) : Option RefusalCause :=
  if c.has (fun | .invokeDynamic _ => true | _ => false) then some .dynamicCallSite
  else if m.isConstructor then some .constructor
  else if !(suspendCalls policy c).isEmpty && m.continuationSlot?.isNone then some .noContinuation
  else none

/-- Makes a method suspendable; nothing if it stays as it is. -/
def makeSuspendable (settings : Settings) (h : Hierarchy) (owner : ClassName) (m : Method) :
    Except Refusal (Option SuspendableMethod) :=
  let refuse (cause : RefusalCause) : Refusal := ⟨s!"{owner.text}.{m.signature}", cause⟩
  match m.code with
  | none => .ok none
  | some c =>
    if !m.isCandidate settings.policy then .ok none
    else
      match refusal? settings.policy m c, m.continuationSlot? with
      | some cause, _ => .error (refuse cause)
      | none, none => .ok none
      | none, some slot =>
        if (suspendCalls settings.policy c).isEmpty then .ok none
        else do
          let plan ← liftError (refuse ∘ .ofAnalysis)
            (planMethod settings.policy h owner m c slot)
          if plan.points.isEmpty then return none
          match plan.points.find? (·.frame.hasUninitialized) with
          | some p => throw (refuse (.uninitialized p.index))
          | none =>
            let made ← liftError (refuse ∘ .ofGenerated) (plan.generate settings h)
            return some made

/-- The class itself in front of the classes around it. -/
def Class.within (c : Class) (h : Hierarchy) : Hierarchy := (Hierarchy.ofClasses [c]).orElse h

/-- Makes one method of a class suspendable; nothing if it stays as it is, as in a marked class. -/
def suspendableMethod (settings : Settings) (h : Hierarchy) (c : Class) (m : Method) :
    Except Refusal (Option SuspendableMethod) :=
  if c.isMarked || c.isMethodMarked m then .ok none
  else makeSuspendable settings (c.within h) c.name m

/-- Makes the methods of a class suspendable that need it. -/
def suspendableClass (settings : Settings) (h : Hierarchy) (c : Class) : Except Refusal Class := do
  if c.isMarked then return c
  let made ← c.methods.mapM (makeSuspendable settings (c.within h) c.name)
  let methods := (c.methods.zip made).map fun (m, made) => (made.map (·.method)).getD m
  let summaries := made.filterMap fun made => made.map (·.summary)
  if summaries.isEmpty then return c
  return { c with methods }.mark summaries

end Resumption
