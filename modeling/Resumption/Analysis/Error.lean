import Resumption.Frame.Transfer

/-!
# Reasons why code cannot be handled

`CodeError` collects what can go wrong while code is checked or made suspendable, and `message`
words it. Code that is well formed but of a shape that the checker refuses meets an `Obstacle`.
-/

namespace Resumption

/-- Shapes of code that are refused. -/
inductive Obstacle where
  /-- there are no instructions -/
  | emptyBody
  /-- the method is abstract or native -/
  | noCode (signature : String)
  /-- variables take more words than can be addressed -/
  | tooManyLocals (count : Nat)
  /-- generated code needs more variables than there are -/
  | tooManyVariables
  /-- the stack takes more words than a class file can say -/
  | stackTooDeep (words : Nat)
  /-- control can get past the last instruction -/
  | fallsOffEnd
  /-- a `jsr` or `ret` that was not inlined -/
  | subroutineInstruction (i : Instruction) (index : Nat)
  /-- two ways lead to one instruction with stacks of different depth -/
  | depthMismatch (a b : List SlotType)
  /-- two ways lead to one instruction with operands that have nothing in common -/
  | incompatibleStack (a b : SlotType)
  /-- a subroutine calls itself -/
  | recursiveSubroutine (l : Label)
  /-- a subroutine does not begin by storing its return address -/
  | noReturnAddress (l : Label)
  /-- a subroutine returns through another variable than the one it began with -/
  | otherReturnAddress (l : Label) (found wanted : Nat)
  /-- control can get past the last instruction in a subroutine -/
  | subroutineFallsOff
  /-- the frames did not settle within the rounds that a sound hierarchy needs -/
  | unsettled
deriving DecidableEq, Repr

/-- Reasons why code cannot be handled. -/
inductive CodeError where
  /-- an instruction cannot be executed in its frame -/
  | verification (i : Instruction) (index : Nat) (reason : FrameError)
  /-- the body has no frames -/
  | unanalyzable (obstacle : Obstacle)
  /-- an instruction that is not reached was asked for -/
  | noFrame (index : Nat)
  /-- a label is placed twice -/
  | duplicateLabel (l : Label)
  /-- a label is used and not placed -/
  | unplacedLabel (l : Label)
  /-- two ways lead to a label with frames that cannot be merged -/
  | incompatibleFrames (l : Label) (existing incoming : Frame)
  /-- a class that has to be known is not -/
  | missingClass (name : ClassName)
deriving DecidableEq, Repr

/-- What is reported about a body that cannot be analyzed. -/
def Obstacle.message : Obstacle → String
  | .emptyBody => "empty method body"
  | .noCode signature => s!"{signature} has no code"
  | .tooManyLocals count => s!"{count} locals is too many"
  | .tooManyVariables => "too many local variables"
  | .stackTooDeep words => s!"stack of {words} words is too deep"
  | .fallsOffEnd => "execution can fall off the end of the code"
  | .subroutineInstruction i index =>
    s!"subroutine instruction {i.describe} at {index} must be inlined first"
  | .depthMismatch a b =>
    s!"stack depth mismatch: {Frame.describeStack a} vs {Frame.describeStack b}"
  | .incompatibleStack a b => s!"incompatible stack types: {a.describe} vs {b.describe}"
  | .recursiveSubroutine l => s!"recursive subroutine at {l.describe}"
  | .noReturnAddress l =>
    s!"subroutine at {l.describe} does not start by storing its return address"
  | .otherReturnAddress l found wanted =>
    s!"subroutine at {l.describe} returns through variable {found} instead of {wanted}"
  | .subroutineFallsOff => "subroutine falls off the end of the code"
  | .unsettled => "frames do not settle"

namespace CodeError

/-- The wording of an error. -/
def message : CodeError → String
  | .verification i index reason =>
    s!"{reason.describe} at instruction {index} ({i.describe})"
  | .unanalyzable obstacle => s!"unanalyzable code: {obstacle.message}"
  | .noFrame index => s!"inconsistent analysis state: no frame computed at {index}"
  | .duplicateLabel l => s!"label {l.describe} is placed twice"
  | .unplacedLabel l => s!"label {l.describe} is never placed"
  | .incompatibleFrames l existing incoming =>
    s!"incompatible frames at {l.describe}: {existing.describe} and {incoming.describe}"
  | .missingClass name => s!"class {name.text} is not in the type hierarchy"

/-- Errors that sound input never causes. -/
def isInternal : CodeError → Bool
  | .noFrame _ | .duplicateLabel _ => true
  | _ => false

/-- A label that is placed twice or not at all, as an error of the code. -/
def ofLabel : LabelError → CodeError
  | .duplicate l => .duplicateLabel l
  | .unplaced l => .unplacedLabel l

/-- Frames that cannot be merged, as an error of the code. -/
def ofMerge : MergeError → CodeError
  | .depthMismatch a b => .unanalyzable (.depthMismatch a b)
  | .incompatibleStack a b => .unanalyzable (.incompatibleStack a b)
  | .missing m => .missingClass m.name

end CodeError

/-- Turns a failure of one kind into another. -/
def liftError {ε δ α : Type} (f : ε → δ) : Except ε α → Except δ α
  | .ok a => .ok a
  | .error e => .error (f e)

end Resumption
