import Resumption.Analysis.Error
import Resumption.Class.Basic

/-!
# Frames of a method body

Forward analysis of a body: the frame before every instruction that can be reached.

* **`Flow`** holds what the analysis needs to know about the body, with labels resolved.
* **`Flow.edges`** gives the frames that an instruction sends to others: to the handlers that cover
  it, to its jump targets, and to the next instruction, in this order.
* **`Flow.visit`** takes an instruction from the worklist and merges what it sends into the frames
  there; an instruction whose frame changed goes back on the worklist.
* **`analyze`** does so until the worklist is empty. Each change moves a frame up among the finitely
  many types above it, so the number of visits is bounded.
-/

namespace Resumption

/-- A handler with its range resolved. -/
structure ActiveHandler where
  /-- where it is in force and where it begins -/
  range : HandlerRange
  /-- what it catches; everything if absent -/
  caught : Option ClassName
deriving DecidableEq, Repr, Inhabited

/-- The result of analyzing a body. -/
structure Analysis where
  /-- the frame before each instruction, absent where nothing leads -/
  frames : Array (Option Frame)
  /-- the indexes of the handlers that cover each instruction -/
  covering : Array (List Nat)
  /-- the most words that are ever on the stack -/
  maxStack : Nat
  /-- the words that variables take -/
  maxLocals : Nat
deriving Repr, Inhabited

namespace Analysis

/-- Whether control can get to an instruction: there is a frame in front of it. -/
def isReachable (a : Analysis) (index : Nat) : Bool := (a.frames.getD index none).isSome

/-- The frame before an instruction that has to be reachable. -/
def frame (a : Analysis) (index : Nat) : Except CodeError Frame :=
  match a.frames.getD index none with
  | some f => .ok f
  | none => .error (.noFrame index)

end Analysis

namespace Instruction

/-- One more than the highest local slot that the instruction touches. -/
def localExtent : Instruction → Nat
  | .load kind slot | .store kind slot => slot + kind.width
  | .increment slot _ | .ret slot => slot + 1
  | _ => 0

/-- The most array dimensions of a type that the instruction can put into a frame. -/
def dimensions : Instruction → Nat
  | .getStatic field | .getField field =>
    match field.type with
    | .ref t => t.dimensions
    | .base _ => 0
  | .invoke _ m =>
    match m.descriptor.result with
    | some (.ref t) => t.dimensions
    | _ => 0
  | .invokeDynamic site =>
    match site.descriptor.result with
    | some (.ref t) => t.dimensions
    | _ => 0
  | .newArray _ => 1
  | .newRefArray t => t.dimensions + 1
  | .newMultiArray t _ | .checkCast t => t.dimensions
  | _ => 0

end Instruction

/-- A body in the form in which it is analyzed. -/
structure Flow where
  /-- what frames are merged by -/
  hierarchy : Hierarchy
  /-- the class and the result of the method -/
  context : MethodContext
  /-- the body -/
  instructions : Array Instruction
  /-- where its labels are -/
  positions : LabelPositions
  /-- its handlers, in order of priority -/
  handlers : List ActiveHandler
deriving Repr, Inhabited

/-- The state of the analysis. -/
structure FlowState where
  /-- what was found so far in front of each instruction -/
  frames : Array (Option Frame)
  /-- instructions to visit, the next one first -/
  worklist : List Nat
  /-- the most words on the stack so far -/
  maxStack : Nat
deriving Repr, Inhabited

namespace Flow

variable (flow : Flow)

/-- The frame that a handler receives: exceptions come before or after the effect on locals. -/
def handlerEdge (before after : Frame) (h : ActiveHandler) : Except CodeError (Nat × Frame) := do
  let merged ← liftError CodeError.ofMerge
    (Frame.merge flow.hierarchy (before.handler h.caught) (after.handler h.caught))
  return (h.range.entry, merged)

/-- The frame that a jump target receives. -/
def jumpEdge (after : Frame) (target : Label) : Except CodeError (Nat × Frame) := do
  let position ← liftError CodeError.ofLabel (flow.positions.find target)
  return (position, after)

/-- The frame after the instruction at an index. -/
def afterFrame (index : Nat) (before : Frame) (i : Instruction) : Except CodeError Frame :=
  match i with
  | .jsr _ | .ret _ => .error (.unanalyzable (.subroutineInstruction i index))
  | _ => liftError (CodeError.verification i index) (before.step flow.context index i)

/-- The frames that an instruction sends to other instructions. -/
def edges (index : Nat) (before after : Frame) (i : Instruction) :
    Except CodeError (List (Nat × Frame)) := do
  let covering := flow.handlers.filter (·.range.covers index)
  let toHandlers ← covering.mapM (flow.handlerEdge before after)
  let toTargets ← i.targets.mapM (flow.jumpEdge after)
  if i.fallsThrough then
    if index + 1 < flow.instructions.size then
      return toHandlers ++ toTargets ++ [(index + 1, after)]
    else throw (.unanalyzable .fallsOffEnd)
  else return toHandlers ++ toTargets

/-- A failed merge is reported against the label at its place, if there is one. -/
def mergeFailure (target : Nat) (existing incoming : Frame) (e : MergeError) : CodeError :=
  match e, flow.positions.labelAt? target with
  | .missing m, _ => .missingClass m.name
  | _, some l => .incompatibleFrames l existing incoming
  | e, none => .ofMerge e

/-- Merges a frame into the one at its target. -/
def receive (s : FlowState) (edge : Nat × Frame) : Except CodeError FlowState := do
  let (target, incoming) := edge
  let enqueue (f : Frame) : FlowState :=
    { s with
      frames := s.frames.set! target (some f)
      worklist := if s.worklist.contains target then s.worklist else target :: s.worklist }
  match s.frames.getD target none with
  | none => return enqueue incoming
  | some existing =>
    let merged ← liftError (flow.mergeFailure target existing incoming)
      (Frame.merge flow.hierarchy existing incoming)
    if merged = existing then return s else return enqueue merged

/-- Visits an instruction that was taken from the worklist. -/
def visit (s : FlowState) (index : Nat) : Except CodeError FlowState := do
  match s.frames.getD index none, flow.instructions[index]? with
  | some before, some i =>
    let after ← flow.afterFrame index before i
    let sent ← flow.edges index before after i
    let handled := if flow.handlers.any (·.range.covers index) then 1 else 0
    let s := { s with maxStack := max (max s.maxStack before.words) (max after.words handled) }
    sent.foldlM flow.receive s
  | _, _ => throw (.noFrame index)

/-- Visits instructions until none is left. -/
def settle : (fuel : Nat) → FlowState → Except CodeError FlowState
  | 0, _ => .error (.unanalyzable .unsettled)
  | fuel + 1, s =>
    match s.worklist with
    | [] => .ok s
    | index :: rest => do settle fuel (← flow.visit { s with worklist := rest } index)

/-- How many array dimensions a type in a frame can have. -/
def dimensions (entry : Frame) : Nat :=
  flow.instructions.foldl (fun n i => n + i.dimensions) 0 +
    entry.locals.foldl (fun n t => n + t.dimensions) 0

/-- How often the type of a slot can change: from null it comes to each class once at most for each
number of array dimensions, and then to `top`. -/
def slotHeight (entry : Frame) : Nat :=
  (flow.hierarchy.types.length + 2) * (flow.dimensions entry + 1) + 1

/-- How often the frame at an instruction can change. It has at most `locals` local slots and two
stack slots for each instruction before it. -/
def frameHeight (locals : Nat) (entry : Frame) : Nat :=
  (locals + 2 * flow.instructions.size) * flow.slotHeight entry

/-- A bound on the number of visits: an instruction is visited when it gets its frame, and then as
often as its frame can change. -/
def visitBound (locals : Nat) (entry : Frame) : Nat :=
  flow.instructions.size * (1 + flow.frameHeight locals entry) + 1

end Flow

/-- A body in the form in which it is analyzed. -/
def Flow.ofCode (h : Hierarchy) (owner : ClassName) (d : MethodDescriptor) (c : Code)
    (positions : LabelPositions) (ranges : List HandlerRange) : Flow where
  hierarchy := h
  context := ⟨owner, d.result⟩
  instructions := c.instructions
  positions
  handlers := (ranges.zip c.handlers).map fun (range, handler) => ⟨range, handler.caught⟩

/-- The state in which the analysis starts. -/
def FlowState.start (c : Code) (entry : Frame) : FlowState where
  frames := (Array.replicate c.instructions.size none).set! 0 (some entry)
  worklist := [0]
  maxStack := 0

/-- Analyzes a body given the parts of the method that matter. -/
def analyzeCode (h : Hierarchy) (owner : ClassName) (name : MemberName) (d : MethodDescriptor)
    (isStatic : Bool) (c : Code) : Except CodeError Analysis := do
  if c.instructions.isEmpty then throw (.unanalyzable .emptyBody)
  let positions ← liftError CodeError.ofLabel c.labelPositions
  let ranges ← liftError CodeError.ofLabel c.handlerRanges
  let locals := c.instructions.foldl (fun n i => max n i.localExtent)
    (max c.maxLocals (d.parameterWords !isStatic))
  if 0x10000 ≤ locals then throw (.unanalyzable (.tooManyLocals locals))
  let flow := Flow.ofCode h owner d c positions ranges
  let entry := Frame.entry owner name d isStatic locals
  let settled ← flow.settle (flow.visitBound locals entry) (.start c entry)
  if 0x10000 ≤ settled.maxStack then throw (.unanalyzable (.stackTooDeep settled.maxStack))
  let covering := (Array.range c.instructions.size).map fun index =>
    (flow.handlers.zipIdx.filter (·.1.range.covers index)).map (·.2)
  return { frames := settled.frames, covering, maxStack := settled.maxStack, maxLocals := locals }

/-- Analyzes the body of a method. -/
def analyze (h : Hierarchy) (owner : ClassName) (m : Method) : Except CodeError Analysis :=
  match m.code with
  | none => .error (.unanalyzable (.noCode m.signature))
  | some c => analyzeCode h owner m.name m.descriptor m.isStatic c

end Resumption
