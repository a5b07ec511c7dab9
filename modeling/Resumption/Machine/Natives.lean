import Resumption.Machine.Arrays

/-!
# Natives

What the methods do that the machine itself provides. Arguments include the receiver.
-/

namespace Resumption

namespace Run

/-- The argument at an index. -/
def argument (arguments : List Value) (index : Nat) : Run Value :=
  match arguments[index]? with
  | some v => return v
  | none => fail (.badReference (.missingArgument index))

/-- An argument that has to be a number of kind int. -/
def intArgument (arguments : List Value) (index : Nat) : Run Int32 := do
  match ← argument arguments index with
  | .int n => return n
  | v => fail (.badReference (.notInt v))

/-- The object that a value refers to; null raises an exception. -/
def referred : Value → Run Ref
  | .ref r => return r
  | .null => nonNull none
  | v => fail (.badReference (.notReference v))

/-- The continuation that a value refers to. -/
def continuationAt (v : Value) : Run (Ref × Continuation Ref) := do
  let r ← referred v
  match ← object r with
  | .continuation c => return (r, c)
  | _ => fail (.badReference (.notContinuation r))

/-- The saved state that a value refers to. -/
def methodStateAt (v : Value) : Run MethodState := do
  let r ← referred v
  match ← object r with
  | .methodState s => return s
  | _ => fail (.badReference (.notMethodState r))

/-- The saved values that a value refers to. -/
def dataAt (v : Value) : Run DataArrays := do
  let r ← referred v
  match ← object r with
  | .data d => return d
  | _ => fail (.badReference (.notData (.ref r)))

/-- The record of monitors that a value refers to. -/
def lockStateAt (v : Value) : Run (Ref × LockState Ref) := do
  let r ← referred v
  match ← object r with
  | .lockState l => return (r, l)
  | _ => fail (.badReference (.notLockState r))

/-- The text at a reference. -/
def stringAt (r : Ref) : Run String := do
  match ← object r with
  | .string s => return s
  | _ => fail (.badReference (.notString r))

/-- A misused continuation is a failure. -/
def liftContinuation {α : Type} : Except ContinuationError α → Run α
  | .ok a => pure a
  | .error e => fail (.continuation e)

end Run

namespace StateNumber

/-- The number in a method state. -/
def of (s : MethodState) : StateNumber → Int32
  | .point => s.point
  | .id => s.id
  | .version => s.version

end StateNumber

namespace StateObject

/-- The object in a method state. -/
def of (s : MethodState) : StateObject → Value
  | .lockState => s.lockState
  | .locals => s.locals
  | .stack => s.stack

end StateObject

namespace Native

open Run

/-- A new object as the result. -/
def created (o : HeapObject) : Run (Option Value) := do return some (.ref (← alloc o))

/-- What a native does with its arguments. -/
def run (arguments : List Value) : Native → Run (Option Value)
  | .getMode => do
    let (_, c) ← continuationAt (← argument arguments 0)
    return some (.int c.mode.toInt32)
  | .setMode => do
    let mode ← liftContinuation (Mode.ofInt32 (← intArgument arguments 1))
    let (r, c) ← continuationAt (← argument arguments 0)
    setObject r (.continuation { c with mode })
    return none
  | .loadNext => do
    let (r, c) ← continuationAt (← argument arguments 0)
    let (state, c) ← liftContinuation c.loadNext
    setObject r (.continuation c)
    return some (.ref state)
  | .push => do
    let state ← referred (← argument arguments 1)
    let (r, c) ← continuationAt (← argument arguments 0)
    setObject r (.continuation (c.push state))
    return none
  | .reset => do
    let (r, c) ← continuationAt (← argument arguments 0)
    setObject r (.continuation c.reset)
    return none
  | .suspend => fail (.unsupported .suspendCall)
  | .invalidPoint => do
    return some (.ref (← newThrowable .illegalStateException "Unrecognized continuation point"))
  | .createState => do
    let owner ← stringAt (← referred (← argument arguments 0))
    let id ← intArgument arguments 1
    let version ← intArgument arguments 2
    let point ← intArgument arguments 3
    let lockState ← argument arguments 4
    let locals ← argument arguments 5
    let stack ← argument arguments 6
    created (.methodState { owner, id, version, point, lockState, locals, stack })
  | .stateNumber which => do
    return some (.int (which.of (← methodStateAt (← argument arguments 0))))
  | .stateObject which => do
    return some (which.of (← methodStateAt (← argument arguments 0)))
  | .createData => do
    let ints ← argument arguments 0
    let longs ← argument arguments 1
    let floats ← argument arguments 2
    let doubles ← argument arguments 3
    let objects ← argument arguments 4
    created (.data { ints, longs, floats, doubles, objects })
  | .dataArray kind => do
    return some ((← dataAt (← argument arguments 0)).ofKind kind)
  | .createLocks => created (.lockState .empty)
  | .enterLock => do
    let monitor ← referred (← argument arguments 1)
    let (r, l) ← lockStateAt (← argument arguments 0)
    setObject r (.lockState (l.enter monitor))
    return none
  | .exitLock => do
    let monitor ← referred (← argument arguments 1)
    let (r, l) ← lockStateAt (← argument arguments 0)
    setObject r (.lockState ((l.exit? monitor).getD l))
    return none
  | .locksToArray => do
    let (_, l) ← lockStateAt (← argument arguments 0)
    created (.array (.array (.object .object)) (l.monitors.map Value.ref).toArray)
  | .println => do
    let line ← match arguments[1]? with
      | some v => liftRun ((← get).render v)
      | none => pure ""
    modify fun m => { m with output := m.output ++ line ++ "\n" }
    return none
  | .recordValue => do
    let v ← argument arguments 0
    modify fun m => { m with probes := v :: m.probes }
    return none
  | .recordMonitors => do
    modify fun m => { m with monitorProbes := m.monitors.held :: m.monitorProbes }
    return none
  | .skip => return none
  | .allocate element => do
    let count ← intArgument arguments 0
    let r ← allocateArray (.array element) count
    modify fun m => { m with pool := { m.pool with pending := m.pool.pending + 1 } }
    return some (.ref r)
  | .commit => do
    modify fun m => { m with pool := { m.pool with pending := 0, commits := m.pool.commits + 1 } }
    return none
  | .rollback => do
    modify fun m =>
      { m with pool := { m.pool with pending := 0, rollbacks := m.pool.rollbacks + 1 } }
    return none

end Native

end Resumption
