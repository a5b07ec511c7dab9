import Resumption.Coroutine.Continuation
import Resumption.Instrument.Point
import Resumption.Instrument.Scratch
import Resumption.Instrument.Settings

/-!
# Suspendable code

The body of a suspendable method, made from the body of the method as written:

```text
        C = continuation parameter
        LS = LockState.create()                      (if the body has monitors)
start:  if C.getMode() is not loading goto body
        MS = C.loadNextMethodState()
        if MS has another id or version goto invalid
        LS = MS.getLockState(); enter its monitors   (if the body has monitors)
        switch on MS.getContinuationPoint(): restore 0, restore 1, …, otherwise invalid
invalid:
        throw Continuation.invalidContinuationPoint()
body:   the instructions as written, each suspending call expanded into a save sequence
        restore 0: put locals and stack of point 0 back, and go on there
        …
end:
handler:
        if C.getMode() is loading, C.reset()
        throw again
```

The handler covers everything from `start` to `end` and comes last in the table, so that handlers of
the method itself come first.

Blocks are lists of instructions. Those that need labels or variables of their own are made in
`Emit`, which hands them out.
-/

namespace Resumption

/-- What is known about a method that is made suspendable. -/
structure MethodPlan where
  /-- the class of the method -/
  owner : ClassName
  /-- the method as written -/
  method : Method
  /-- the body, without subroutines -/
  code : Code
  /-- the frames of the body -/
  analysis : Analysis
  /-- where the body may suspend, in order -/
  points : List SuspendPoint
  /-- the local that holds the continuation on entry -/
  continuationSlot : Nat
  /-- which method of its class it is -/
  id : Int32
  /-- the version of the body -/
  version : Int32
deriving Repr, Inhabited

/-- Variables that keep track of monitors. -/
structure MonitorVariables where
  /-- the lock state of the activation -/
  lockState : Lease
  /-- monitors being entered or left -/
  array : Lease
  /-- position in the array -/
  index : Lease
  /-- the object of a monitor instruction -/
  monitor : Lease
deriving Repr, Inhabited

/-- What the blocks of one method have in common. -/
structure Layout where
  /-- what was asked for -/
  settings : Settings
  /-- what is known of the method -/
  plan : MethodPlan
  /-- the variable of the continuation -/
  continuation : Lease
  /-- the variable of the saved state that is being loaded -/
  state : Lease
  /-- the variables for monitors, if the body enters any -/
  monitors : Option MonitorVariables
deriving Repr, Inhabited

/-- A value that is saved, and the variable it comes from and goes back to. -/
structure SavedValue where
  /-- where it is saved -/
  kind : ValueKind
  /-- the variable it comes from and goes back to -/
  slot : Nat
  /-- the type that an object is cast to when it goes back -/
  cast : Option RefType
deriving DecidableEq, Repr, Inhabited

/-- What becomes of one instruction of the body as written. -/
structure Piece where
  /-- what stands in its place -/
  inPlace : List Instruction
  /-- the block that restores its point, empty if it is none -/
  block : List Instruction
deriving DecidableEq, Repr, Inhabited

/-- The parts of a suspendable body. -/
structure Expansion where
  /-- what comes before the body as written -/
  entry : List Instruction
  /-- one for each instruction of the body as written -/
  pieces : List Piece
  /-- what comes after the restore blocks -/
  exit : List Instruction
  /-- those of the body, and the one around it -/
  handlers : List Handler
deriving Repr, Inhabited

namespace Expansion

/-- All instructions: the body with its points expanded, then the restore blocks. -/
def instructions (e : Expansion) : List Instruction :=
  e.entry ++ e.pieces.flatMap (·.inPlace) ++ e.pieces.flatMap (·.block) ++ e.exit

/-- The written instructions and handlers as a body. -/
def code (e : Expansion) : Code := .ofInstructions e.instructions e.handlers

end Expansion

/-- The next label and the variables that can be leased. -/
structure EmitState where
  /-- the next fresh label -/
  nextLabel : Label
  /-- the variables in use -/
  scratch : ScratchTable
deriving Repr, Inhabited

/-- Makes blocks that need labels or variables of their own. -/
abbrev Emit := StateT EmitState (Except CodeError)

namespace Emit

/-- A label in use nowhere else. -/
def freshLabel : Emit Label := fun s =>
  .ok (s.nextLabel, { s with nextLabel := s.nextLabel.next })

/-- Takes a scratch variable of a kind. -/
def acquire (kind : ValueKind) : Emit Lease := fun s =>
  match s.scratch.acquire kind with
  | .ok (lease, scratch) => .ok (lease, { s with scratch })
  | .error e => .error e

/-- Gives a scratch variable back. -/
def release (lease : Lease) : Emit Unit := fun s =>
  .ok ((), { s with scratch := s.scratch.release lease })

end Emit

/-- The cast that turns an element of an object array back into a value of this type. -/
def castType? : SlotType → Option RefType
  | .object t => if t = .object .object then none else some t
  | _ => none

/-- The locals with a value to save, from `slot` on; `skip` slots are second halves. -/
def savedLocalsFrom (slot skip : Nat) : List SlotType → List SavedValue
  | [] => []
  | t :: rest =>
    match skip with
    | skip + 1 => savedLocalsFrom (slot + 1) skip rest
    | 0 =>
      let later := savedLocalsFrom (slot + 1) (t.width - 1) rest
      match ValueKind.ofSlot? t with
      | some kind => ⟨kind, slot, castType? t⟩ :: later
      | none => later

/-- The slots that hold null, from `slot` on. -/
def nullLocalsFrom (slot skip : Nat) : List SlotType → List Nat
  | [] => []
  | t :: rest =>
    match skip with
    | skip + 1 => nullLocalsFrom (slot + 1) skip rest
    | 0 =>
      let later := nullLocalsFrom (slot + 1) (t.width - 1) rest
      if t = .null then slot :: later else later

namespace SuspendPoint

/-- The variables that are saved at a point. -/
def savedLocals (p : SuspendPoint) : List SavedValue := savedLocalsFrom 0 0 p.frame.locals

/-- The variables that hold null at a point. They are not saved, and set to null again. -/
def nullLocals (p : SuspendPoint) : List Nat := nullLocalsFrom 0 0 p.frame.locals

/-- Types of the stack values to save, bottom first. The receiver of `suspend` is not needed. -/
def stackToSave (p : SuspendPoint) : List SlotType :=
  match p.kind with
  | .invoke => p.frame.stack.reverse
  | .suspend => p.frame.stack.tail.reverse

end SuspendPoint

/-- The stack values that were spilled into variables; null needs none. -/
def savedStack (types : List SlotType) (leases : List (Option Lease)) : List SavedValue :=
  (types.zip leases).filterMap fun (t, lease) =>
    lease.map fun lease => ⟨lease.kind, lease.slot, castType? t⟩

/-- A call on an object. -/
def callVirtual (m : MethodRef) : Instruction := .invoke .virtual m

/-- A call without an object. -/
def callStatic (m : MethodRef) : Instruction := .invoke .static m

/-- The method that gives the array of saved values of a kind. -/
def ValueKind.getter : ValueKind → MethodRef
  | .int => Interface.Data.getInts
  | .long => Interface.Data.getLongs
  | .float => Interface.Data.getFloats
  | .double => Interface.Data.getDoubles
  | .object => Interface.Data.getObjects

/-- Moves the top of the stack into a variable; null is dropped. -/
def spillInto : Option Lease → Instruction
  | some lease => lease.store
  | none => .stack .pop

/-- Puts a spilled value back on the stack. -/
def reloadFrom : Option Lease → Instruction
  | some lease => lease.load
  | none => .pushNull

/-- Moves values from the stack into variables, given bottom first. -/
def spillStack (leases : List (Option Lease)) : List Instruction := leases.reverse.map spillInto

/-- Puts spilled values back on the stack, bottom first. -/
def reloadStack (leases : List (Option Lease)) : List Instruction := leases.map reloadFrom

/-- Returns a placeholder; the caller is saving as well and will not look at it. -/
def placeholderReturn : Option FieldType → List Instruction
  | none => [.returnVoid]
  | some (.base .long) => [.pushLong 0, .returnValue .long]
  | some (.base .float) => [.pushFloat 0, .returnValue .float]
  | some (.base .double) => [.pushDouble 0, .returnValue .double]
  | some (.base _) => [.pushInt 0, .returnValue .int]
  | some (.ref _) => [.pushNull, .returnValue .object]

/-- Drops the top of the stack, a value of this width. -/
def dropTop (width : Nat) : Instruction := .stack (if width = 1 then .pop else .pop2)

/-- Clears the stack after a call that returned while saving. -/
def clearAfterCall (i : Instruction) (saved : List SlotType) : List Instruction :=
  match i with
  | .invoke kind m =>
    let consumed := m.descriptor.parameters.length + (if kind = .static then 0 else 1)
    let remaining := saved.take (saved.length - consumed)
    (m.descriptor.result.toList.map fun t => dropTop t.width) ++
      remaining.reverse.map fun t => dropTop t.width
  | _ => []

namespace Layout

variable (l : Layout)

/-- Class and signature of the method, for announcements. -/
def location : String := s!"{l.plan.owner.text}.{l.plan.method.signature}"

/-- Announces what generated code is about to do. -/
def announce (what : String) : List Instruction :=
  let text := Instruction.pushConstant (.string s!"{l.location}: {what}")
  match l.settings.announcement with
  | .silent => []
  | .constant => [text, .stack .pop]
  | .printed => [.getStatic Interface.Print.out, text, callVirtual Interface.Print.println]

/-- Goes to the label unless the continuation is in the mode. -/
def unlessMode (mode : Mode) (otherwise : Label) : List Instruction :=
  [l.continuation.load, callVirtual Interface.Continuation.getMode, .pushInt mode.toInt32,
   .ifInt .ne otherwise]

/-- Changes the mode of the continuation. -/
def setMode (mode : Mode) : List Instruction :=
  [l.continuation.load, .pushInt mode.toInt32, callVirtual Interface.Continuation.setMode]

/-- Goes to the label unless a number of the method state is the expected one. -/
def unlessState (getter : MethodRef) (expected : Int32) (otherwise : Label) : List Instruction :=
  [l.state.load, callVirtual getter, .pushInt expected, .ifInt .ne otherwise]

/-- Enters every monitor of the lock state that was loaded, oldest first. -/
def enterLoop (m : MonitorVariables) (start stop : Label) : List Instruction :=
  [l.state.load, callVirtual Interface.MethodState.getLockState, m.lockState.store,
   m.lockState.load, callVirtual Interface.LockState.toArray, m.array.store,
   .pushInt 0, m.index.store,
   .label start,
   m.index.load, m.array.load, .arrayLength, .ifInt .ge stop,
   m.array.load, m.index.load, .arrayLoad .object, .monitorEnter,
   .increment m.index.slot 1, .goto start,
   .label stop]

/-- Leaves every monitor of the lock state, most recent first. -/
def exitLoop (m : MonitorVariables) (start stop : Label) : List Instruction :=
  [m.lockState.load, callVirtual Interface.LockState.toArray, m.array.store,
   m.array.load, .arrayLength, m.index.store,
   .label start,
   m.index.load, .ifZero .le stop,
   .increment m.index.slot (-1),
   m.array.load, m.index.load, .arrayLoad .object, .monitorExit,
   .goto start,
   .label stop]

/-- The code for the monitors, made with two labels; none if the body has no monitors. -/
def monitorLoop (loop : MonitorVariables → Label → Label → List Instruction) :
    Emit (List Instruction) :=
  match l.monitors with
  | some m => do
    let start ← Emit.freshLabel
    let stop ← Emit.freshLabel
    return loop m start stop
  | none => return []

/-- A monitor instruction that also records the change in the lock state. -/
def recordMonitor (m : MonitorVariables) (i : Instruction) (record : MethodRef) :
    List Instruction :=
  [.stack .dup, m.monitor.store, i, m.lockState.load, m.monitor.load, callVirtual record]

/-- Takes the next method state, checks that it belongs to this code, and enters its monitors. -/
def loadState (invalid : Label) (enters : List Instruction) : List Instruction :=
  [l.continuation.load, callVirtual Interface.Continuation.loadNextMethodState, l.state.store] ++
    l.unlessState Interface.MethodState.getMethodId l.plan.id invalid ++
    l.unlessState Interface.MethodState.getMethodVersion l.plan.version invalid ++
    enters

/-- Allocates an array whose length is on the stack. -/
def allocateArray (kind : ValueKind) : Instruction :=
  match l.settings.allocator, kind with
  | .custom owner, _ => callStatic (Interface.allocator owner kind.elementType)
  | .instruction, .int => .newArray .int
  | .instruction, .long => .newArray .long
  | .instruction, .float => .newArray .float
  | .instruction, .double => .newArray .double
  | .instruction, .object => .newRefArray (.object .object)

/-- Stores a value into the array on the stack and keeps the array there. -/
def saveElement (kind : ValueKind) (value : SavedValue) (index : Nat) : List Instruction :=
  [.stack .dup, .pushInt (Int32.ofNat index), .load kind value.slot, .arrayStore kind.element]

/-- Pushes the array of the saved values of a kind, null if there are none. -/
def buildArray (kind : ValueKind) (values : List SavedValue) : List Instruction :=
  match values.filter (·.kind = kind) with
  | [] => [.pushNull]
  | ofKind =>
    [.pushInt (Int32.ofNat ofKind.length), l.allocateArray kind] ++
      ofKind.zipIdx.flatMap fun (value, index) => saveElement kind value index

/-- Pushes an object that holds the values. -/
def buildData (values : List SavedValue) : List Instruction :=
  ValueKind.all.flatMap (l.buildArray · values) ++ [callStatic Interface.Data.create]

/-- Pushes the lock state of the activation, null if the body has no monitors. -/
def pushLockState : Instruction :=
  match l.monitors with
  | some m => m.lockState.load
  | none => .pushNull

/-- Makes the method state and hands it over. -/
def pushState (p : SuspendPoint) (leases : List (Option Lease)) : List Instruction :=
  [l.continuation.load, .pushConstant (.string l.plan.owner.text), .pushInt l.plan.id,
     .pushInt l.plan.version, .pushInt (Int32.ofNat p.id), l.pushLockState] ++
    l.buildData p.savedLocals ++
    l.buildData (savedStack p.stackToSave leases) ++
    [callStatic Interface.MethodState.create,
     callVirtual Interface.Continuation.pushNewMethodState]

/-- Tells the allocator that a frame was pushed. -/
def commit : List Instruction :=
  match l.settings.allocator with
  | .custom owner => [callStatic (Interface.commit owner)]
  | .instruction => []

/-- Hands the method state over, leaves the monitors and returns. -/
def save (p : SuspendPoint) (leases : List (Option Lease)) (exits : List Instruction) :
    List Instruction :=
  l.pushState p leases ++ l.commit ++ exits ++ placeholderReturn l.plan.method.descriptor.result

/-- Copies an element of the array in a variable into the variable it was saved from. -/
def restoreElement (kind : ValueKind) (array : Lease) (value : SavedValue) (index : Nat) :
    List Instruction :=
  [array.load, .pushInt (Int32.ofNat index), .arrayLoad kind.element] ++
    (value.cast.map Instruction.checkCast).toList ++ [.store kind value.slot]

/-- Copies values of a kind back into their variables, from an array that is put into a variable
first. -/
def restoreFrom (dataGetter : MethodRef) (kind : ValueKind) (ofKind : List SavedValue)
    (array : Lease) : List Instruction :=
  [l.state.load, callVirtual dataGetter, callVirtual kind.getter, array.store] ++
    ofKind.zipIdx.flatMap fun (value, index) => restoreElement kind array value index

/-- Copies the saved values of a kind back into their variables. -/
def restoreArray (dataGetter : MethodRef) (kind : ValueKind) (values : List SavedValue) :
    Emit (List Instruction) :=
  match values.filter (·.kind = kind) with
  | [] => pure []
  | ofKind => do
    let array ← Emit.acquire .object
    Emit.release array
    return l.restoreFrom dataGetter kind ofKind array

/-- Copies all saved values back into their variables. -/
def restoreData (dataGetter : MethodRef) (values : List SavedValue) : Emit (List Instruction) := do
  let blocks ← ValueKind.all.mapM fun kind => l.restoreArray dataGetter kind values
  return blocks.flatten

/-- Puts null back into the locals that held it. -/
def restoreNulls (slots : List Nat) : List Instruction :=
  slots.flatMap fun slot => [.pushNull, .store .object slot]

/-- What is left to do once all variables are restored: after `suspend` the stack is put back in
place, before a call this happens there. -/
def resumed (p : SuspendPoint) (leases : List (Option Lease)) : List Instruction :=
  match p.kind with
  | .suspend => l.setMode .normal ++ reloadStack leases
  | .invoke => []

/-- The block that puts locals and stack of a point back and goes on there. -/
def restoreBlock (p : SuspendPoint) (leases : List (Option Lease)) (here resume : Label)
    (locals stack : List Instruction) : List Instruction :=
  [.label here] ++ l.announce s!"restoring continuation point {p.id}" ++ locals ++
    restoreNulls p.nullLocals ++ stack ++ l.resumed p leases ++ [.goto resume]

/-- The restore block of a point. -/
def restore (p : SuspendPoint) (leases : List (Option Lease)) (here resume : Label) :
    Emit (List Instruction) := do
  let locals ← l.restoreData Interface.MethodState.getLocals p.savedLocals
  let stack ← l.restoreData Interface.MethodState.getStack (savedStack p.stackToSave leases)
  return l.restoreBlock p leases here resume locals stack

/-- A variable for a value on the stack; null needs none. -/
def spill (t : SlotType) : Emit (Option Lease) :=
  match ValueKind.ofSlot? t with
  | some kind => do return some (← Emit.acquire kind)
  | none => return none

/-- In place of a call of `suspend`: save, and go on after it when resumed. -/
def suspendSequence (p : SuspendPoint) (leases : List (Option Lease)) (resume : Label)
    (exits : List Instruction) : List Instruction :=
  [.stack .pop] ++ spillStack leases ++ l.setMode .saving ++
    l.announce s!"saving continuation point {p.id}" ++ l.save p leases exits ++ [.label resume]

/-- In place of a call that may suspend: make it, and save if it did. -/
def invokeSequence (p : SuspendPoint) (i : Instruction) (leases : List (Option Lease))
    (resume after : Label) (exits : List Instruction) : List Instruction :=
  spillStack leases ++ [.label resume] ++ reloadStack leases ++ [i] ++
    l.unlessMode .saving after ++ l.announce s!"saving continuation point {p.id}" ++
    clearAfterCall i p.stackToSave ++ l.save p leases exits ++ [.label after]

/-- What stands in place of the call of a point. -/
def sequence (p : SuspendPoint) (i : Instruction) (leases : List (Option Lease))
    (resume : Label) : Emit (List Instruction) :=
  match p.kind with
  | .invoke => do
    let after ← Emit.freshLabel
    return l.invokeSequence p i leases resume after (← l.monitorLoop exitLoop)
  | .suspend => do
    return l.suspendSequence p leases resume (← l.monitorLoop exitLoop)

/-- The save sequence of a point, in place of its call, and its restore block. -/
def suspendPoint (p : SuspendPoint) (i : Instruction) (here : Label) : Emit Piece := do
  let spilled ← p.stackToSave.reverse.mapM spill
  let leases := spilled.reverse
  let resume ← Emit.freshLabel
  let inPlace ← l.sequence p i leases resume
  let block ← l.restore p leases here resume
  (leases.filterMap (·)).forM Emit.release
  return { inPlace, block }

/-- An instruction that is no point: line numbers may be dropped, and monitors are recorded. -/
def keep (i : Instruction) : List Instruction :=
  match i, l.monitors with
  | .lineNumber _, _ => if l.settings.keepLineNumbers then [i] else []
  | .monitorEnter, some m => recordMonitor m i Interface.LockState.enter
  | .monitorExit, some m => recordMonitor m i Interface.LockState.exit
  | _, _ => [i]

/-- What becomes of the instruction at an index; `restores` are the labels of the restore blocks. -/
def piece (restores : List Label) (i : Instruction) (index : Nat) : Emit Piece :=
  match l.plan.points.find? (·.index = index) with
  | some p => l.suspendPoint p i (restores.getD p.id default)
  | none => return { inPlace := l.keep i, block := [] }

/-- The body with its points expanded. -/
def body (restores : List Label) : Emit (List Piece) :=
  l.plan.code.instructions.toList.zipIdx.mapM fun (i, index) => l.piece restores i index

/-- Makes a lock state for the activation, if the body has monitors. -/
def createLockState : List Instruction :=
  match l.monitors with
  | some m => [callStatic Interface.LockState.create, m.lockState.store]
  | none => []

/-- What a method begins with in every mode. -/
def start (bodyStart : Label) : List Instruction :=
  l.announce "entry" ++
    [.load .object l.plan.continuationSlot, l.continuation.store] ++ l.createLockState ++
    [.label bodyStart]

/-- Goes to the restore block of the method state. -/
def toPoint (invalid : Label) (restores : List Label) : List Instruction :=
  [l.state.load, callVirtual Interface.MethodState.getContinuationPoint,
   .tableSwitch 0 invalid restores]

/-- What comes before the body as written. -/
def entry (bodyStart written invalid : Label) (restores : List Label)
    (enters : List Instruction) : List Instruction :=
  l.start bodyStart ++ l.unlessMode .loading written ++
    l.announce "loading" ++ l.loadState invalid enters ++ l.toPoint invalid restores ++
    [.label invalid, callStatic Interface.Continuation.invalidContinuationPoint, .throw,
     .label written]

/-- Tells the allocator that loading failed. -/
def rollback : List Instruction :=
  match l.settings.allocator with
  | .custom owner => [callStatic (Interface.rollback owner)]
  | .instruction => []

/-- The handler that undoes a failed restore. -/
def exit (bodyEnd handler rethrow : Label) : List Instruction :=
  [.label bodyEnd, .label handler] ++ l.unlessMode .loading rethrow ++
    [l.continuation.load, callVirtual Interface.Continuation.reset] ++ l.rollback ++
    [.label rethrow, .throw]

/-- The body of the suspendable method. -/
def method : Emit Expansion := do
  let bodyStart ← Emit.freshLabel
  let bodyEnd ← Emit.freshLabel
  let handler ← Emit.freshLabel
  let written ← Emit.freshLabel
  let invalid ← Emit.freshLabel
  let restores ← l.plan.points.mapM fun _ => Emit.freshLabel
  let enters ← l.monitorLoop l.enterLoop
  let pieces ← l.body restores
  let rethrow ← Emit.freshLabel
  let resetting : Handler :=
    { start := bodyStart, stop := bodyEnd, entry := handler, caught := none }
  return { entry := l.entry bodyStart written invalid restores enters
           pieces
           exit := l.exit bodyEnd handler rethrow
           handlers := l.plan.code.handlers ++ [resetting] }

end Layout

/-- Does the code enter or leave monitors? -/
def Code.hasMonitors (c : Code) : Bool :=
  c.has fun
    | .monitorEnter | .monitorExit => true
    | _ => false

namespace Emit

/-- The variables that keep track of monitors. -/
def monitorVariables : Emit MonitorVariables := do
  let lockState ← acquire .object
  let array ← acquire .object
  let index ← acquire .int
  let monitor ← acquire .object
  return { lockState, array, index, monitor }

/-- The variables that every block may use. -/
def layout (settings : Settings) (plan : MethodPlan) : Emit Layout := do
  let continuation ← acquire .object
  let state ← acquire .object
  let monitors ← if plan.code.hasMonitors then some <$> monitorVariables else pure none
  return { settings, plan, continuation, state, monitors }

end Emit

/-- The parts of the suspendable method. -/
def expansion (settings : Settings) (plan : MethodPlan) : Except CodeError Expansion := do
  let start : EmitState :=
    { nextLabel := plan.code.nextLabel, scratch := .ofFirst plan.analysis.maxLocals }
  let (e, _) ← (do (← Emit.layout settings plan).method : Emit Expansion) start
  return e

/-- The body of the suspendable method, without limits and stack map. -/
def suspendableCode (settings : Settings) (plan : MethodPlan) : Except CodeError Code := do
  return (← expansion settings plan).code

end Resumption
