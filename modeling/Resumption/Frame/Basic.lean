import Resumption.Code.Basic
import Resumption.Frame.WordList

/-!
# Frames

The types of all local variables and of the operand stack at a place in the code. There is one entry
for each local slot, and a wide value is followed by `top`. The stack is a list with its top first.

* **`Frame.entry`** is the frame with which a method starts;
* **`Frame.handler`** the one with which an exception handler starts;
* **`Frame.merge`** the one that describes two others at once.
-/

namespace Resumption

/-- Types of locals and of the operand stack, its top first. -/
structure Frame where
  /-- the variables, word by word -/
  locals : List SlotType
  /-- the operands, the topmost first -/
  stack : List SlotType
deriving DecidableEq, Repr, Inhabited

/-- Reasons why two frames have no common description. -/
inductive MergeError where
  /-- stacks of different depth -/
  | depthMismatch (a b : List SlotType)
  /-- operands that have nothing in common -/
  | incompatibleStack (a b : SlotType)
  /-- a class that has to be known is not -/
  | missing (missing : MissingClass)
deriving DecidableEq, Repr

namespace Frame

/-- The slots of a value of a type: a wide value is followed by `top`. -/
def slotsOf (t : SlotType) : List SlotType := if t.width = 2 then [t, .top] else [t]

/-- The slot of the receiver. A constructor starts with an object that is not initialized. -/
def receiver (owner : ClassName) (method : MemberName) : SlotType :=
  if method = .init && owner ≠ .object then .uninitializedThis else .ofClass owner

/-- The locals that a method is called with. -/
def arguments (owner : ClassName) (method : MemberName) (d : MethodDescriptor) (isStatic : Bool) :
    List SlotType :=
  (if isStatic then [] else [receiver owner method]) ++
    d.parameters.flatMap fun t => slotsOf (.ofField t)

/-- Extends locals to a number of slots. -/
def padded (size : Nat) (locals : List SlotType) : List SlotType :=
  locals ++ List.replicate (size - locals.length) .top

/-- The frame on entry to a method with `size` local slots. -/
def entry (owner : ClassName) (method : MemberName) (d : MethodDescriptor) (isStatic : Bool)
    (size : Nat) : Frame :=
  { locals := padded size (arguments owner method d isStatic), stack := [] }

/-- The frame on entry to a handler that covers an instruction with this frame. -/
def handler (f : Frame) (caught : Option ClassName) : Frame :=
  { f with stack := [.ofClass (caught.getD .throwable)] }

/-- What stays in a slot with this neighbour: half of a wide value is as good as nothing. -/
def unlessHalf (t : SlotType) (next : Option SlotType) : SlotType :=
  if t.width = 2 && next ≠ some .top then .top else t

/-- Makes halves of wide values unusable. -/
def withoutHalves (locals : List SlotType) : List SlotType :=
  List.zipWith unlessHalf locals (locals.tail.map some ++ [none])

/-- Merges locals slot by slot; missing slots are `top`. -/
def mergeLocals (h : Hierarchy) (a b : List SlotType) : Known (List SlotType) :=
  let size := max a.length b.length
  ((padded size a).zip (padded size b)).mapM fun (t, u) => SlotType.merge h t u

/-- Lifts an answer of the hierarchy. -/
def known {α : Type} : Known α → Except MergeError α
  | .ok a => .ok a
  | .error e => .error (.missing e)

/-- Merges two types on a stack, where no slot may become unusable. -/
def mergeOnStack (h : Hierarchy) (t u : SlotType) : Except MergeError SlotType := do
  let merged ← known (SlotType.merge h t u)
  if merged = .top then throw (.incompatibleStack t u) else return merged

/-- Merges stacks of one depth; of several faults the one nearest the bottom is reported. -/
def mergeStacks (h : Hierarchy) (a b : List SlotType) : Except MergeError (List SlotType) := do
  let merged ← (a.zip b).reverse.mapM fun (t, u) => mergeOnStack h t u
  return merged.reverse

/-- The frame that describes two others at once. -/
def merge (h : Hierarchy) (a b : Frame) : Except MergeError Frame := do
  if a.stack.length ≠ b.stack.length then throw (.depthMismatch a.stack b.stack)
  let stack ← mergeStacks h a.stack b.stack
  let locals ← known (mergeLocals h a.locals b.locals)
  return { locals := withoutHalves locals, stack }

/-- Size of the stack in words. -/
def words (f : Frame) : Nat := f.stack.foldr (fun t n => t.width + n) 0

/-- Is there an object whose constructor has not run? -/
def hasUninitialized (f : Frame) : Bool :=
  f.stack.any SlotType.isUninitialized || f.locals.any SlotType.isUninitialized

/-- The stack, bottom first, with the offset of every value. -/
def describeStack (stack : List SlotType) : String :=
  (WordList.ofList stack.reverse).describe SlotType.describe

/-- The frame as it is written in messages. -/
def describe (f : Frame) : String :=
  let locals := describeList SlotType.describe f.locals
  s!"Frame \x7b locals: {locals}, stack: {describeStack f.stack} \x7d"

end Frame

end Resumption
