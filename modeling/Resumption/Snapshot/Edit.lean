import Resumption.Snapshot.Rules

/-!
# Frame edits

Small changes to a saved frame, from which rules can be put together.
-/

namespace Resumption

/-- One change to a saved frame. -/
inductive FrameEdit where
  /-- says that the frame belongs to something else -/
  | setKey (key : FrameKey)
  /-- says that it has stopped somewhere else -/
  | setPoint (point : Int32)
  /-- adds to an integer among the locals; nothing happens if there is none at the index -/
  | addInt (index : Nat) (n : Int32)
  /-- appends an integer to the locals -/
  | pushInt (n : Int32)
  /-- appends a long to the stack -/
  | pushLong (n : Int64)
  /-- forgets the monitors -/
  | dropMonitors
  /-- drops the last object of the locals -/
  | popObject
deriving DecidableEq, Repr

namespace FrameEdit

variable {ω : Type}

/-- The frame after the change. Integers wrap around. -/
def apply (f : SavedFrame ω) : FrameEdit → SavedFrame ω
  | .setKey key => { f with key }
  | .setPoint point => { f with key := { f.key with point } }
  | .addInt index n =>
    { f with locals := { f.locals with ints := f.locals.ints.modify index (· + n) } }
  | .pushInt n => { f with locals := { f.locals with ints := f.locals.ints ++ [n] } }
  | .pushLong n => { f with stack := { f.stack with longs := f.stack.longs ++ [n] } }
  | .dropMonitors => { f with monitors := [] }
  | .popObject => { f with locals := { f.locals with objects := f.locals.objects.dropLast } }

/-- The rule that makes these edits, one after the other. -/
def rule (key : FrameKey) (edits : List FrameEdit) : FrameRule ω :=
  ⟨key, fun f => edits.foldl apply f⟩

end FrameEdit

end Resumption
