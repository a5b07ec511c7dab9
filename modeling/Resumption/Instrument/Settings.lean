import Resumption.Instrument.Policy

/-!
# Settings

Choices that generated code depends on.
-/

namespace Resumption

/-- How generated code announces what it is doing. -/
inductive Announcement where
  /-- nothing is said -/
  | silent
  /-- a constant that is pushed and popped: visible in the code, without effect -/
  | constant
  /-- a printed line -/
  | printed
deriving DecidableEq, Repr, Inhabited

/-- Where the arrays for saved frames come from. -/
inductive FrameAllocator where
  /-- an instruction of its own -/
  | instruction
  /-- static methods of a class, which is told when a frame is pushed and when loading fails -/
  | custom (owner : ClassName)
deriving DecidableEq, Repr, Inhabited

/-- Choices for the code that is generated. -/
structure Settings where
  /-- how generated code tells what it does -/
  announcement : Announcement
  /-- whether line numbers stay -/
  keepLineNumbers : Bool
  /-- where the arrays of saved values come from -/
  allocator : FrameAllocator
  /-- which calls may suspend -/
  policy : SuspendPolicy
deriving Repr, Inhabited

/-- Silent code that keeps line numbers and allocates arrays itself, suspending in calls that take a
continuation. -/
def Settings.standard : Settings :=
  { announcement := .silent, keepLineNumbers := true, allocator := .instruction,
    policy := .byParameter }

end Resumption
