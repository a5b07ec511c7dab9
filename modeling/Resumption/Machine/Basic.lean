import Resumption.Class.Basic
import Resumption.Coroutine.Interface
import Resumption.Heap.Object
import Resumption.Hierarchy.Library
import Resumption.Hierarchy.Subtyping
import Resumption.Machine.Error
import Resumption.Machine.Monitors

/-!
# The machine

A machine with one thread that runs method bodies as they are, labels included. It knows the classes
that were loaded and, beyond them, the library types and the **natives**, methods that the machine
itself provides.

A computation on a machine (`Run`) ends with a value, with an exception, which code can catch, or
with a failure, which it cannot; the machine keeps what happened up to there in each case.
-/

namespace Resumption

/-- Numbers that a method state holds. -/
inductive StateNumber where
  | point | id | version
deriving DecidableEq, Repr, Inhabited

/-- Objects that a method state holds. -/
inductive StateObject where
  | lockState | locals | stack
deriving DecidableEq, Repr, Inhabited

/-- Methods that the machine itself provides. -/
inductive Native where
  /-- reads the mode of a continuation -/
  | getMode
  /-- writes the mode of a continuation -/
  | setMode
  /-- gives the next saved state -/
  | loadNext
  /-- takes a new state -/
  | push
  /-- undoes a restore that failed -/
  | reset
  /-- fails, since generated code never gets there -/
  | suspend
  /-- makes the exception for a state that does not belong to the code -/
  | invalidPoint
  /-- makes a saved state -/
  | createState
  /-- reads a number of a saved state -/
  | stateNumber (which : StateNumber)
  /-- reads an object of a saved state -/
  | stateObject (which : StateObject)
  /-- puts arrays of saved values together -/
  | createData
  /-- reads one of the arrays -/
  | dataArray (kind : ValueKind)
  /-- makes a record of monitors -/
  | createLocks
  /-- enters a monitor and records it -/
  | enterLock
  /-- exits a monitor and forgets it -/
  | exitLock
  /-- reads the recorded monitors -/
  | locksToArray
  /-- prints a line -/
  | println
  /-- records a value -/
  | recordValue
  /-- records the monitors that are held -/
  | recordMonitors
  /-- does nothing -/
  | skip
  /-- makes an array that is not settled yet -/
  | allocate (element : FieldType)
  /-- settles what was handed out -/
  | commit
  /-- gives up what was handed out -/
  | rollback
deriving DecidableEq, Repr, Inhabited

/-- What became of the arrays that an allocator handed out. -/
structure FramePool where
  /-- handed out and not settled yet -/
  pending : Nat
  /-- how often what was handed out was kept -/
  commits : Nat
  /-- how often it was given up -/
  rollbacks : Nat
deriving DecidableEq, Repr, Inhabited

/-- The state of a machine. -/
structure Machine where
  /-- loaded classes, no two with one name -/
  classes : List Class
  /-- the classes that are ready -/
  initialized : List ClassName
  /-- all objects; none is ever taken away -/
  heap : Array HeapObject
  /-- the static fields that were written -/
  statics : List ((ClassName × MemberName) × Value)
  /-- string objects of literals -/
  strings : List (String × Ref)
  /-- methods that are not code -/
  natives : List (MethodRef × Native)
  /-- the monitors that are held -/
  monitors : Monitors
  /-- what was printed -/
  output : String
  /-- recorded values, last first -/
  probes : List Value
  /-- recorded lists of held monitors, last first -/
  monitorProbes : List (List Ref)
  /-- what the allocator has handed out -/
  pool : FramePool
  /-- limit on nested calls -/
  maxDepth : Nat
  /-- limit on the steps of one activation -/
  maxSteps : Nat
deriving Repr, Inhabited

/-- How a computation ends other than with a value. -/
inductive Abrupt where
  /-- an exception, which code can catch -/
  | exception (r : Ref)
  /-- the end of the run -/
  | failure (e : RunError)
deriving DecidableEq, Repr

/-- A computation on a machine. -/
abbrev Run := EStateM Abrupt Machine

namespace Machine

/-- The object that text is printed on. -/
def printStream : Ref := ⟨0⟩

/-- The natives of the runtime classes, for printing, and for recording values. -/
def standardNatives : List (MethodRef × Native) :=
  ([ (Interface.Continuation.getMode, .getMode),
    (Interface.Continuation.setMode, .setMode),
    (Interface.Continuation.loadNextMethodState, .loadNext),
    (Interface.Continuation.pushNewMethodState, .push),
    (Interface.Continuation.reset, .reset),
    (Interface.Continuation.suspend, .suspend),
    (Interface.Continuation.invalidContinuationPoint, .invalidPoint),
    (Interface.MethodState.create, .createState),
    (Interface.MethodState.getContinuationPoint, .stateNumber .point),
    (Interface.MethodState.getMethodId, .stateNumber .id),
    (Interface.MethodState.getMethodVersion, .stateNumber .version),
    (Interface.MethodState.getLockState, .stateObject .lockState),
    (Interface.MethodState.getLocals, .stateObject .locals),
    (Interface.MethodState.getStack, .stateObject .stack),
    (Interface.Data.create, .createData),
    (Interface.Data.getInts, .dataArray .int),
    (Interface.Data.getLongs, .dataArray .long),
    (Interface.Data.getFloats, .dataArray .float),
    (Interface.Data.getDoubles, .dataArray .double),
    (Interface.Data.getObjects, .dataArray .object),
    (Interface.LockState.create, .createLocks),
    (Interface.LockState.enter, .enterLock),
    (Interface.LockState.exit, .exitLock),
    (Interface.LockState.toArray, .locksToArray) ] : List (MethodRef × Native)) ++
  (([[], [.int], [.long], [.float], [.double], [.object .string],
      [.object .object]] : List (List FieldType)).map
    fun parameters => (Interface.method .printStream .println parameters none, Native.println)) ++
  (([.int, .long, .float, .double, .object .object] : List FieldType).map
    fun parameter => (Interface.method .probe .record [parameter] none, Native.recordValue)) ++
  ([ (Interface.method .probe .monitors [] none, .recordMonitors),
    (Interface.method .object .init [] none, .skip) ] : List (MethodRef × Native))

/-- The natives of an allocator class. -/
def allocatorNatives (owner : ClassName) : List (MethodRef × Native) :=
  (([.int, .long, .float, .double, .object .object] : List FieldType).map
    fun element => (Interface.allocator owner element, Native.allocate element)) ++
  [(Interface.commit owner, .commit), (Interface.rollback owner, .rollback)]

/-- A machine without classes. -/
def new : Machine where
  classes := []
  initialized := []
  heap := #[.printStream]
  statics := [((.system, .out), .ref printStream)]
  strings := []
  natives := standardNatives
  monitors := []
  output := ""
  probes := []
  monitorProbes := []
  pool := ⟨0, 0, 0⟩
  maxDepth := 256
  maxSteps := 0x1000000000000

variable (m : Machine)

/-- Loads a class, in place of a class of the same name. -/
def load (c : Class) : Machine :=
  { m with classes := c :: m.classes.filter (·.name ≠ c.name) }

/-- Provides natives; they go before those that are there. -/
def provide (natives : List (MethodRef × Native)) : Machine :=
  { m with natives := natives ++ m.natives }

/-- The class with a name; the first one counts. -/
def class? (name : ClassName) : Option Class := m.classes.find? (·.name = name)

/-- Loaded classes first, then the library types. -/
def hierarchy : Hierarchy := (Hierarchy.ofClasses m.classes).orElse Library.hierarchy

/-- What is on the heap at a reference. -/
def object? (r : Ref) : Option HeapObject := m.heap[r.index]?

/-- Puts an object on the heap. -/
def alloc (o : HeapObject) : Ref × Machine := (⟨m.heap.size⟩, { m with heap := m.heap.push o })

/-- The string object for a literal, the same one every time. -/
def intern (s : String) : Ref × Machine :=
  match m.strings.lookup s with
  | some r => (r, m)
  | none =>
    let (r, m) := m.alloc (.string s)
    (r, { m with strings := (s, r) :: m.strings })

/-- The text of a value, as printing shows it. -/
def render : Value → Except RunError String
  | .int n => .ok s!"{n.toInt}"
  | .long n => .ok s!"{n.toInt}"
  | .float bits => .ok (describeFloat bits)
  | .double bits => .ok (describeDouble bits)
  | .null | .top => .ok "null"
  | .ref r =>
    match m.object? r with
    | some (.string s) => .ok s
    | some o => .ok s!"{o.type.render}{r.describe}"
    | none => .error (.badReference (.notOnHeap r))

/-- The failure that an exception becomes when nothing catches it. -/
def uncaught (r : Ref) : RunError :=
  match m.object? r with
  | some (.instance owner fields) =>
    let message := match fields.get? .message with
      | some (.ref text) =>
        match m.object? text with
        | some (.string s) => some s
        | _ => none
      | _ => none
    .uncaught owner message
  | some _ => .badReference (.notThrowable r)
  | none => .badReference (.notOnHeap r)

end Machine

namespace Run

variable {α : Type}

/-- Ends with a failure. -/
def fail (e : RunError) : Run α := throw (.failure e)

/-- A result, as a run that changes nothing. -/
def liftRun : Except RunError α → Run α
  | .ok a => pure a
  | .error e => fail e

/-- Puts an object on the heap. -/
def alloc (o : HeapObject) : Run Ref := modifyGet (·.alloc o)

/-- The object of a string; there is one for each text. -/
def intern (s : String) : Run Ref := modifyGet (·.intern s)

/-- What is on the heap at a reference that has to be there. -/
def object (r : Ref) : Run HeapObject := do
  match (← get).object? r with
  | some o => return o
  | none => fail (.badReference (.notOnHeap r))

/-- Replaces an object. -/
def setObject (r : Ref) (o : HeapObject) : Run Unit :=
  modify fun m => { m with heap := m.heap.setIfInBounds r.index o }

/-- A new exception with a message. -/
def newThrowable (owner : ClassName) (message : String) : Run Ref := do
  let text ← intern message
  alloc (.instance owner [(.message, .ref text)])

/-- Throws a new exception. -/
def raise (owner : ClassName) (message : String) : Run α := do
  throw (.exception (← newThrowable owner message))

/-- The object itself; null raises an exception. -/
def nonNull : Option Ref → Run Ref
  | some r => return r
  | none => raise .nullPointerException "null reference"

end Run

end Resumption
