import Resumption.Analysis.Basic

/-!
# Stack maps

A stack map lists the frames at the places where control can come together: reachable jump targets
of reachable instructions and reachable handler entries, in code order. Each frame is made compact
and told relative to the one before, the first relative to the frame on entry.

`CompactFrame.entry` picks the shortest way to tell a frame, and `CompactFrame.apply` reads it back.
-/

namespace Resumption

/-- A frame in which a wide local takes one entry and unusable locals at the end are left out. The
stack is bottom first. -/
structure CompactFrame where
  /-- the variables, wide ones once -/
  locals : List SlotType
  /-- the operands, the deepest first -/
  stack : List SlotType
deriving DecidableEq, Repr, Inhabited

namespace CompactFrame

/-- Locals with the second halves of wide values left out; `skip` slots are passed over. -/
def compact (skip : Nat) (kept : List SlotType) : List SlotType → List SlotType
  | [] => kept.reverse
  | t :: rest =>
    match skip with
    | skip + 1 => compact skip kept rest
    | 0 => compact (t.width - 1) (t :: kept) rest

/-- Leaves out unusable locals at the end. -/
def trim (locals : List SlotType) : List SlotType :=
  (locals.reverse.dropWhile (· = .top)).reverse

/-- A frame as the table writes it: without the second word of wide values, and without what is
unknown at the end. -/
def ofFrame (f : Frame) : CompactFrame :=
  { locals := trim (compact 0 [] f.locals), stack := f.stack.reverse }

/-- How to tell this frame, at a label, relative to the previous one. -/
def entry (previous : CompactFrame) (l : Label) (current : CompactFrame) : StackMapEntry :=
  let full := .full l current.locals current.stack
  match current.stack with
  | [] =>
    let size := current.locals.length
    let before := previous.locals.length
    if size ≤ before then
      if before - size < 4 && current.locals.isPrefixOf previous.locals then
        if before = size then .same l else .chop l (before - size)
      else full
    else if size - before < 4 && previous.locals.isPrefixOf current.locals then
      .append l (current.locals.drop before)
    else full
  | [t] => if current.locals = previous.locals then .sameLocalsOneStack l t else full
  | _ => full

/-- The frame that an entry tells, relative to the previous one. -/
def apply (previous : CompactFrame) : StackMapEntry → CompactFrame
  | .same _ => { previous with stack := [] }
  | .sameLocalsOneStack _ t => { previous with stack := [t] }
  | .chop _ count =>
    { locals := previous.locals.take (previous.locals.length - count), stack := [] }
  | .append _ locals => { locals := previous.locals ++ locals, stack := [] }
  | .full _ locals stack => { locals, stack }

end CompactFrame

/-- The labels that may need an entry, those of jumps first. -/
def joinLabels (c : Code) (a : Analysis) : List Label :=
  (c.instructions.toList.zipIdx.filter fun (_, index) => a.isReachable index).flatMap
    (fun (i, _) => i.targets) ++ c.handlers.map (·.entry)

/-- Files a label under its position. Positions are kept in increasing order, and of two labels for
one position the later stays. -/
def fileLabel (position : Nat) (l : Label) : List (Nat × Label) → List (Nat × Label)
  | [] => [(position, l)]
  | (p, m) :: rest =>
    if position < p then (position, l) :: (p, m) :: rest
    else if position = p then (position, l) :: rest
    else (p, m) :: fileLabel position l rest

/-- The reachable join points in code order. -/
def joinPoints (c : Code) (a : Analysis) : Except CodeError (List (Nat × Label)) := do
  let positions ← liftError CodeError.ofLabel c.labelPositions
  (joinLabels c a).foldlM (fun filed l => do
    let position ← liftError CodeError.ofLabel (positions.find l)
    return if a.isReachable position then fileLabel position l filed else filed) []

/-- The entries for the frames at join points, each relative to the one before. -/
def stackMapEntries (a : Analysis) : (previous : CompactFrame) → List (Nat × Label) →
    Except CodeError (List StackMapEntry)
  | _, [] => .ok []
  | previous, (position, l) :: rest => do
    let current := CompactFrame.ofFrame (← a.frame position)
    return previous.entry l current :: (← stackMapEntries a current rest)

/-- The stack map of an analyzed body. -/
def stackMap (c : Code) (a : Analysis) : Except CodeError (List StackMapEntry) := do
  let points ← joinPoints c a
  let start := CompactFrame.ofFrame (← a.frame 0)
  stackMapEntries a start points

/-- A method with the limits of its frames and its stack map filled in. -/
def withMetadata (h : Hierarchy) (owner : ClassName) (m : Method) : Except CodeError Method := do
  let a ← analyze h owner m
  match m.code with
  | none => throw (.unanalyzable (.noCode m.signature))
  | some c =>
    let table ← stackMap c a
    let code := { c with maxStack := a.maxStack, maxLocals := a.maxLocals, stackMap := some table }
    return { m with code := some code }

end Resumption
