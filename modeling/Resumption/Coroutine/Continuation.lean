/-!
# Continuations

The saved call stack of one coroutine. Saved states are kept outermost first. One cycle of
execution:

* `beginCycle` switches to **loading** if anything is saved;
* each suspendable method takes its state with `loadNext`, until the innermost one switches back to
  **normal**;
* a suspension switches to **saving**, and every method on the way out hands over its state with
  `push`;
* `finishCycle` keeps what was pushed for the next cycle.

If loading fails, `reset` goes back to where the cycle began, with the same states saved.
-/

namespace Resumption

/-- What suspendable code does at its start and at the calls that may suspend. -/
inductive Mode where
  | normal | saving | loading
deriving DecidableEq, Repr, Inhabited

/-- Misuse of a continuation. -/
inductive ContinuationError where
  /-- code asks for a state when all are loaded -/
  | noStateToLoad (next saved : Nat)
  /-- code ends before all states are loaded -/
  | incompleteRestore (loaded saved : Nat)
  /-- a number that no mode has -/
  | invalidMode (mode : Int32)
deriving DecidableEq, Repr

/-- What is reported when states cannot be loaded. -/
def ContinuationError.message : ContinuationError → String
  | .noStateToLoad next saved => s!"no method state to load (next is {next} of {saved})"
  | .incompleteRestore loaded saved =>
    s!"execution finished while restoring ({loaded} of {saved} states loaded)"
  | .invalidMode mode => s!"invalid continuation mode {mode.toInt}"

namespace Mode

/-- The number of a mode, as running code sees it. -/
def toInt32 : Mode → Int32
  | .normal => 0
  | .saving => 1
  | .loading => 2

/-- The mode with a number, if there is one. -/
def ofInt32 (n : Int32) : Except ContinuationError Mode :=
  if n = 0 then .ok .normal
  else if n = 1 then .ok .saving
  else if n = 2 then .ok .loading
  else .error (.invalidMode n)

end Mode

/-- The saved call stack of a coroutine. -/
structure Continuation (σ : Type) where
  /-- what code has to do -/
  mode : Mode
  /-- saved states, outermost first -/
  saved : List σ
  /-- the state that loading begins with -/
  first : Nat
  /-- the state to be loaded next -/
  nextLoad : Nat
  /-- the state that was loaded last -/
  nextUnload : Option Nat
  /-- states pushed while saving, outermost first -/
  cutpoints : List σ
  /-- the outermost of the pushed states, if there are any -/
  firstCutpoint : Option Nat
deriving DecidableEq, Repr, Inhabited

namespace Continuation

variable {σ : Type}

/-- A continuation with nothing saved. -/
def empty : Continuation σ where
  mode := .normal
  saved := []
  first := 0
  nextLoad := 0
  nextUnload := none
  cutpoints := []
  firstCutpoint := none

/-- The next saved state, from the outermost inwards. -/
def loadNext (c : Continuation σ) : Except ContinuationError (σ × Continuation σ) :=
  match c.saved[c.nextLoad]? with
  | none => .error (.noStateToLoad c.nextLoad c.saved.length)
  | some state =>
    .ok (state, { c with nextUnload := some c.nextLoad, nextLoad := c.nextLoad + 1 })

/-- Hands over a state while saving. Methods are left from the innermost outwards, so each state
goes in front. -/
def push (c : Continuation σ) (state : σ) : Continuation σ :=
  { c with cutpoints := state :: c.cutpoints, firstCutpoint := some 0 }

/-- Forgets what was loaded and pushed in this cycle. -/
def rewind (c : Continuation σ) : Continuation σ :=
  { c with nextLoad := c.first, nextUnload := none, cutpoints := [], firstCutpoint := none }

/-- Undoes a restore that failed. -/
def reset (c : Continuation σ) : Continuation σ := { c.rewind with mode := .normal }

/-- Prepares for running the coroutine. -/
def beginCycle (c : Continuation σ) : Continuation σ :=
  { c.rewind with mode := if c.saved.isEmpty then .normal else .loading }

/-- Replaces the saved states. -/
def ofSaved (saved : List σ) : Continuation σ := { empty with saved }

/-- Wraps up after the coroutine has returned, and says whether it suspended. -/
def finishCycle (c : Continuation σ) : Except ContinuationError (Bool × Continuation σ) :=
  match c.mode with
  | .saving => .ok (true, ofSaved c.cutpoints)
  | .normal => .ok (false, empty)
  | .loading => .error (.incompleteRestore (c.nextLoad - c.first) c.saved.length)

end Continuation

end Resumption
