import Resumption.Code.Describe
import Resumption.Frame.SlotType

/-!
# Method bodies

A body is its instructions, its exception handlers in order of priority, the limits of its frames,
and, once computed, a stack map: the frames at its join points, each told relative to the one
before. `nextLabel` is above every label in use, so labels can be added without a clash.
-/

namespace Resumption

/-- Catches exceptions thrown between two labels, the first included and the second not. -/
structure Handler where
  /-- where it comes into force -/
  start : Label
  /-- where it is no longer in force -/
  stop : Label
  /-- where it begins -/
  entry : Label
  /-- what is caught; `none` is everything -/
  caught : Option ClassName
deriving DecidableEq, Repr, Inhabited

/-- The frame at a label, relative to the previous entry. Locals are compact: a wide value takes one
entry, and unusable locals at the end are left out. -/
inductive StackMapEntry where
  /-- the same locals, an empty stack -/
  | same (l : Label)
  /-- the same locals, one value on the stack -/
  | sameLocalsOneStack (l : Label) (stack : SlotType)
  /-- one to three locals fewer, an empty stack -/
  | chop (l : Label) (count : Nat)
  /-- one to three locals more, an empty stack -/
  | append (l : Label) (locals : List SlotType)
  /-- all locals and the stack, bottom first -/
  | full (l : Label) (locals stack : List SlotType)
deriving DecidableEq, Repr, Inhabited

/-- A method body. -/
structure Code where
  /-- the words that variables take -/
  maxLocals : Nat
  /-- the most words that are ever on the stack -/
  maxStack : Nat
  /-- the instructions, labels among them -/
  instructions : Array Instruction
  /-- handlers, in order of priority -/
  handlers : List Handler
  /-- the table for the verifier, if there is one -/
  stackMap : Option (List StackMapEntry)
  /-- a label that is above all that are in use -/
  nextLabel : Label
deriving DecidableEq, Repr, Inhabited

/-- Labels that do not name exactly one place. -/
inductive LabelError where
  /-- it is placed twice -/
  | duplicate (l : Label)
  /-- it is not placed -/
  | unplaced (l : Label)
deriving DecidableEq, Repr

/-- A handler with its labels resolved to positions. -/
structure HandlerRange where
  /-- the first index that is covered -/
  start : Nat
  /-- the first index behind them -/
  stop : Nat
  /-- the index at which the handler begins -/
  entry : Nat
deriving DecidableEq, Repr, Inhabited

namespace Handler

/-- The labels of a handler. -/
def labels (h : Handler) : List Label := [h.start, h.stop, h.entry]

/-- The handler as it is written behind a version. -/
def describe (h : Handler) : String :=
  s!"ExceptionHandler \x7b start: {h.start.describe}, end: {h.stop.describe}, " ++
    s!"handler: {h.entry.describe}, catch_type: {describeOption ClassName.text h.caught} \x7d"

end Handler

/-- Is the position in the range? -/
def HandlerRange.covers (r : HandlerRange) (position : Nat) : Bool :=
  r.start ≤ position && position < r.stop

/-- Positions of labels. -/
abbrev LabelPositions := List (Label × Nat)

namespace LabelPositions

/-- The position of a label that has to have one. -/
def find (positions : LabelPositions) (l : Label) : Except LabelError Nat :=
  match positions.lookup l with
  | some position => .ok position
  | none => .error (.unplaced l)

/-- The label at a position. -/
def labelAt? (positions : LabelPositions) (position : Nat) : Option Label :=
  (positions.find? (·.2 == position)).map (·.1)

end LabelPositions

namespace Code

/-- The labels that an instruction places or jumps to. -/
def labelsOf (i : Instruction) : List Label := i.placed?.toList ++ i.targets

/-- A body with no limits and no stack map yet. -/
def ofInstructions (instructions : List Instruction) (handlers : List Handler) : Code where
  maxLocals := 0
  maxStack := 0
  instructions := instructions.toArray
  handlers
  stackMap := none
  nextLabel := .above (instructions.flatMap labelsOf ++ handlers.flatMap Handler.labels)

/-- Places of the labels in a list of instructions whose first has position `index`. -/
def placeLabels (index : Nat) (placed : LabelPositions) :
    List Instruction → Except LabelError LabelPositions
  | [] => .ok placed
  | i :: rest =>
    match i.placed? with
    | none => placeLabels (index + 1) placed rest
    | some l =>
      if placed.any (·.1 == l) then .error (.duplicate l)
      else placeLabels (index + 1) ((l, index) :: placed) rest

/-- The position of every label; a label may be placed once only. -/
def labelPositions (c : Code) : Except LabelError LabelPositions :=
  placeLabels 0 [] c.instructions.toList

/-- The positions of a handler. -/
def resolve (positions : LabelPositions) (h : Handler) : Except LabelError HandlerRange := do
  let start ← positions.find h.start
  let stop ← positions.find h.stop
  let entry ← positions.find h.entry
  return { start, stop, entry }

/-- The positions of every handler. -/
def handlerRanges (c : Code) : Except LabelError (List HandlerRange) := do
  let positions ← c.labelPositions
  c.handlers.mapM (resolve positions)

/-- Does some instruction satisfy the predicate? -/
def has (c : Code) (p : Instruction → Bool) : Bool := c.instructions.any p

/-- The text of the instructions and then of the handlers. -/
def describe (c : Code) : String :=
  describeList Instruction.describe c.instructions.toList ++
    describeList Handler.describe c.handlers

end Code

end Resumption
