import Resumption.Machine.Interpreter
import Resumption.Machine.ObjectFormat
import Resumption.Snapshot.Loadable

/-!
# Coroutines on a machine

A coroutine is an object whose class has a `run` method that takes a continuation. Each execution
starts at `run`; suspendable methods restore what the last execution saved, so that it goes on after
the last suspension.

A suspended coroutine can be written as a snapshot (`serialize`) and read onto another machine
(`deserialize`), where each frame must fit the code that is loaded there.
-/

namespace Resumption

/-- A coroutine and the machine it runs on. -/
structure Coroutine where
  /-- where it runs -/
  machine : Machine
  /-- the coroutine object -/
  object : Ref
  /-- its continuation -/
  continuation : Ref
deriving Repr, Inhabited

namespace Machine

/-- What an abrupt end is to the outside: an exception was not caught. -/
def settle (m : Machine) : Abrupt → RunError
  | .exception r => m.uncaught r
  | .failure e => e

/-- Runs a computation from outside. -/
def perform {α : Type} (m : Machine) (run : Run α) : Except RunError α × Machine :=
  match run m with
  | .ok a m => (.ok a, m)
  | .error abrupt m => (.error (m.settle abrupt), m)

/-- What is on the heap at a reference that has to be there. -/
def objectAt (m : Machine) (r : Ref) : Except RunError HeapObject :=
  match m.object? r with
  | some o => .ok o
  | none => .error (.badReference (.notOnHeap r))

end Machine

namespace Coroutine

/-- The method that executions start at. -/
def entryPoint (owner : ClassName) : MethodRef :=
  ⟨owner, .run, ⟨[.object .continuation], none⟩⟩

/-- A new object of a class as a coroutine with nothing saved. -/
def new (m : Machine) (owner : ClassName) : Except RunError Coroutine :=
  match m.perform (Run.construct owner) with
  | (.error e, _) => .error e
  | (.ok object, m) =>
    let (continuation, machine) := m.alloc (.continuation .empty)
    .ok { machine, object, continuation }

/-- The state of the continuation. -/
def state (c : Coroutine) : Except RunError (Continuation Ref) := do
  match ← c.machine.objectAt c.continuation with
  | .continuation k => return k
  | _ => throw (.badReference .continuationReplaced)

/-- Replaces an object on the machine. -/
def setObject (c : Coroutine) (r : Ref) (o : HeapObject) : Coroutine :=
  { c with machine := { c.machine with heap := c.machine.heap.setIfInBounds r.index o } }

/-- Changes what the continuation holds. -/
def setState (c : Coroutine) (k : Continuation Ref) : Coroutine :=
  c.setObject c.continuation (.continuation k)

/-- Wraps up after `run` has returned, and says whether the coroutine suspended. -/
def finish (c : Coroutine) : Except RunError Bool × Coroutine :=
  match c.state with
  | .error e => (.error e, c)
  | .ok k =>
    match k.finishCycle with
    | .error e => (.error (.continuation e), c)
    | .ok (suspended, k) => (.ok suspended, c.setState k)

/-- Runs the coroutine until it suspends or returns, with so many steps for each activation, and says
whether it suspended. -/
def executeWithin (limit : Nat) (c : Coroutine) : Except RunError Bool × Coroutine :=
  match c.state with
  | .error e => (.error e, c)
  | .ok k =>
    let c := c.setState k.beginCycle
    match c.machine.objectAt c.object with
    | .error e => (.error e, c)
    | .ok (.instance owner _) =>
      let arguments := [.ref c.object, .ref c.continuation]
      match c.machine.perform (Run.invokeWithin limit .virtual (entryPoint owner) arguments) with
      | (.error e, machine) => (.error e, { c with machine })
      | (.ok _, machine) => finish { c with machine }
    | .ok _ => (.error (.badReference (.notInstance c.object)), c)

/-- Runs the coroutine until it suspends or returns, with as many steps as the machine allows. -/
def execute (c : Coroutine) : Except RunError Bool × Coroutine :=
  c.executeWithin c.machine.maxSteps

/-! ## Saved states -/

/-- The saved state at an index, outermost first, and where it is. -/
def savedState (c : Coroutine) (index : Nat) : Except RunError (Ref × MethodState) := do
  match (← c.state).saved[index]? with
  | none => throw (.badReference (.noSavedState index))
  | some r =>
    match ← c.machine.objectAt r with
    | .methodState s => return (r, s)
    | _ => throw (.badReference (.notMethodState r))

/-- Changes the saved state at an index. -/
def modifySaved (c : Coroutine) (index : Nat) (f : MethodState → MethodState) :
    Except RunError Coroutine := do
  let (r, s) ← c.savedState index
  return c.setObject r (.methodState (f s))

/-- Replaces all saved states. -/
def setSaved (c : Coroutine) (saved : List Ref) : Except RunError Coroutine := do
  let _ ← c.state
  return c.setState (.ofSaved saved)

/-! ## Capturing -/

/-- The elements of an array, each of a wanted kind; null has none. -/
def elements {α : Type} (m : Machine) (want : Value → Option α) (array : Value) :
    Except RunError (List α) := do
  let values ← match array with
    | .null => pure []
    | .ref r =>
      match ← m.objectAt r with
      | .array _ values => pure values.toList
      | _ => throw (.badReference (.notArray array))
    | v => throw (.badReference (.notArray v))
  values.mapM fun v =>
    match want v with
    | some a => .ok a
    | none => .error (.badReference (.unexpectedSaved v))

/-- The values that a data object holds. -/
def captureData (c : Coroutine) (v : Value) : Except RunError (SavedData Value) := do
  match v with
  | .null => return .empty
  | .ref r =>
    match ← c.machine.objectAt r with
    | .data d =>
      let objects ← elements c.machine
        (fun v => if v.isReference then some v else none) d.objects
      let ints ← elements c.machine (fun | .int n => some n | _ => none) d.ints
      let longs ← elements c.machine (fun | .long n => some n | _ => none) d.longs
      let floats ← elements c.machine (fun | .float bits => some bits | _ => none) d.floats
      let doubles ← elements c.machine (fun | .double bits => some bits | _ => none) d.doubles
      let handles := (objects.zipIdx.filter (·.1 = .ref c.continuation)).map (·.2)
      return { ints, longs, floats, doubles, objects, handles }
    | _ => throw (.badReference (.notData v))
  | v => throw (.badReference (.notData v))

/-- The monitors that a lock state holds; anything but an object stands for none. -/
def captureMonitors (c : Coroutine) (v : Value) : Except RunError (List Value) := do
  match v with
  | .ref r =>
    match ← c.machine.objectAt r with
    | .lockState l => return l.monitors.map .ref
    | _ => throw (.badReference (.notLockState r))
  | _ => return []

/-- The frame that a saved state stands for. -/
def captureFrame (c : Coroutine) (r : Ref) : Except RunError (SavedFrame Value) := do
  match ← c.machine.objectAt r with
  | .methodState s =>
    let monitors ← c.captureMonitors s.lockState
    let locals ← c.captureData s.locals
    let stack ← c.captureData s.stack
    return { key := { owner := s.owner, id := s.id, version := s.version, point := s.point }
             monitors, locals, stack }
  | _ => throw (.badReference (.notMethodState r))

/-- The snapshot of the coroutine as bytes. -/
def serialize (c : Coroutine) (rules : SnapshotRules Value) : Except RunError (List UInt8) := do
  let frames ← (← c.state).saved.mapM c.captureFrame
  liftError RunError.snapshot do
    let snapshot ← rules.capture (.ref c.object) frames
    c.machine.writeSnapshot c.continuation snapshot

/-! ## Restoring -/

/-- An array with these elements; null if there are none. -/
def restoreArray (m : Machine) (element : FieldType) (values : List Value) : Value × Machine :=
  if values.isEmpty then (.null, m)
  else
    let (r, m) := m.alloc (.array (.array element) values.toArray)
    (.ref r, m)

/-- A data object with these values. -/
def restoreData (m : Machine) (d : SavedData Value) : Value × Machine :=
  let (ints, m) := restoreArray m .int (d.ints.map .int)
  let (longs, m) := restoreArray m .long (d.longs.map .long)
  let (floats, m) := restoreArray m .float (d.floats.map .float)
  let (doubles, m) := restoreArray m .double (d.doubles.map .double)
  let (objects, m) := restoreArray m (.object .object) d.objects
  let (r, m) := m.alloc (.data { ints, longs, floats, doubles, objects })
  (.ref r, m)

/-- A saved state for a frame. -/
def restoreFrame (m : Machine) (f : SavedFrame Value) : Ref × Machine :=
  let (locks, m) := m.alloc (.lockState ⟨f.monitors.filterMap Value.ref?⟩)
  let (locals, m) := restoreData m f.locals
  let (stack, m) := restoreData m f.stack
  m.alloc (.methodState
    { owner := f.key.owner, id := f.key.id, version := f.key.version, point := f.key.point
      lockState := .ref locks, locals, stack })

/-- Saved states for frames, in order. -/
def restoreFrames (m : Machine) : List (SavedFrame Value) → List Ref × Machine
  | [] => ([], m)
  | f :: rest =>
    let (r, m) := restoreFrame m f
    let (refs, m) := restoreFrames m rest
    (r :: refs, m)

/-- Reads a coroutine onto a machine, ready to be executed. -/
def deserialize (m : Machine) (bytes : List UInt8) (rules : SnapshotRules Value) :
    Except RunError Coroutine := do
  let (continuation, m) := m.alloc (.continuation .empty)
  let (snapshot, m, _) ← liftError RunError.snapshot (m.readSnapshot continuation bytes)
  match snapshot.payload with
  | .ref object =>
    let frames ← liftError RunError.snapshot (rules.restore (isLoadable m.classes) snapshot)
    let (saved, machine) := restoreFrames m frames
    Coroutine.setSaved { machine, object, continuation } saved
  | _ => throw (.badReference .payloadNotObject)

end Coroutine

end Resumption
