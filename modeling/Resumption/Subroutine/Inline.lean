import Resumption.Analysis.Error

/-!
# Subroutines inlined

A subroutine is entered by `jsr`, keeps its return address in a local, and is left by `ret` on that
local. Checking code with subroutines is hard, so every `jsr` is replaced by a copy of the body it
enters:

* null stands in for the return address, and each `ret` becomes a jump to the end of the copy;
* labels placed in the body get fresh names in the copy;
* handlers that cover instructions of the body are repeated for the copy, behind the handler they
  are copied from.

The body is what can be reached from its entry without passing a `ret`. A `jsr` inside the body is
replaced in its turn, and a body that would have to be put inside itself is refused.
-/

namespace Resumption.Subroutine

/-- An instruction of the result. -/
structure Emitted where
  /-- what is written -/
  instruction : Instruction
  /-- index of the instruction it comes from -/
  origin : Option Nat
  /-- the copy it belongs to -/
  copy : Option Nat
deriving DecidableEq, Repr, Inhabited

/-- What has been written so far. -/
structure Output where
  /-- last first -/
  emitted : List Emitted
  /-- for each copy, last first, the fresh names of the labels placed in the body -/
  renamings : List (List (Label × Label))
  /-- the next fresh label -/
  nextLabel : Label
deriving Repr, Inhabited

/-- A body and the places of its labels. -/
structure Source where
  /-- the body -/
  code : Code
  /-- where its labels are -/
  positions : LabelPositions
deriving Repr, Inhabited

namespace Output

/-- Writes an instruction. -/
def emit (o : Output) (i : Instruction) (origin copy : Option Nat) : Output :=
  { o with emitted := ⟨i, origin, copy⟩ :: o.emitted }

/-- A label in use nowhere else. -/
def fresh (o : Output) : Label × Output := (o.nextLabel, { o with nextLabel := o.nextLabel.next })

/-- A fresh name for every label. -/
def freshNames (o : Output) (labels : List Label) : List (Label × Label) × Output :=
  labels.foldl (fun (names, o) l =>
    let (name, o) := o.fresh
    (names ++ [(l, name)], o)) ([], o)

end Output

namespace Source

/-- The position of a label. -/
def position (s : Source) (l : Label) : Except CodeError Nat :=
  liftError CodeError.ofLabel (s.positions.find l)

/-- The places where control can go inside a subroutine after an instruction, the first to be
visited first: the next instruction, then jump targets from the last to the first. -/
def successors (s : Source) (index : Nat) (i : Instruction) : Except CodeError (List Nat) :=
  match i with
  | .ret _ => .ok []
  | .jsr _ => .ok [index + 1]
  | _ => do
    let targets ← i.targets.mapM s.position
    return (if i.fallsThrough then [index + 1] else []) ++ targets.reverse

/-- Visits instructions until none is left; every round visits one that was not visited before. -/
def reach (s : Source) : (fuel : Nat) → (toVisit visited : List Nat) → Except CodeError (List Nat)
  | 0, _, visited => .ok visited
  | fuel + 1, toVisit, visited =>
    match toVisit.dropWhile visited.contains with
    | [] => .ok visited
    | index :: rest =>
      match s.code.instructions[index]? with
      | none => .error (.unanalyzable .subroutineFallsOff)
      | some i => do
        let next ← s.successors index i
        s.reach fuel (next ++ rest) (index :: visited)

/-- The indexes of the instructions of the subroutine that starts at `start`, in code order. -/
def body (s : Source) (start : Nat) : Except CodeError (List Nat) := do
  let size := s.code.instructions.size
  let reached ← s.reach (size + 2) [start] []
  return (List.range size).filter reached.contains

/-- The local in which the subroutine at a label keeps its return address. -/
def returnSlot (s : Source) (target : Label) (start : Nat) : Except CodeError Nat :=
  match (s.code.instructions.toList.drop start).find? (!·.isMark) with
  | some (.store .object slot) => .ok slot
  | _ => .error (.unanalyzable (.noReturnAddress target))

/-- Puts a copy of the subroutine at `target` in place of the `jsr` at `call`. The labels in
`active` are those of the copies around it; each is there once, so `fuel` for every label is enough.
-/
def inlineCall (s : Source) : (fuel : Nat) → (call : Nat) → (target : Label) →
    (active : List Label) → Output → Except CodeError Output
  | 0, _, target, _, _ => .error (.unanalyzable (.recursiveSubroutine target))
  | fuel + 1, call, target, active, o => do
    if active.contains target then throw (.unanalyzable (.recursiveSubroutine target))
    let start ← s.position target
    let slot ← s.returnSlot target start
    let body ← s.body start
    let copy := o.renamings.length
    let placed := body.filterMap fun index => (s.code.instructions[index]?).bind Instruction.placed?
    let (names, o) := o.freshNames placed
    let o := { o with renamings := names :: o.renamings }
    let (done, o) := o.fresh
    let rename (l : Label) : Label := (names.lookup l).getD l
    let o := o.emit .pushNull (some call) (some copy)
    let o ← body.foldlM (fun (o : Output) (index : Nat) =>
      match s.code.instructions[index]? with
      | some (.ret found) =>
        if found = slot then .ok (o.emit (.goto done) (some index) (some copy))
        else .error (.unanalyzable (.otherReturnAddress target found slot))
      | some (.jsr nested) => s.inlineCall fuel index nested (target :: active) o
      | some i => .ok (o.emit (i.mapLabels rename) (some index) (some copy))
      | none => .ok o) o
    return o.emit (.label done) none none

end Source

/-! ## Handlers of the copies -/

/-- A stretch of consecutive instructions of one copy: where it starts, where it ends, and which
copy it is. -/
structure Stretch where
  /-- the first line -/
  start : Nat
  /-- the line behind the last one -/
  stop : Nat
  /-- the copy that they belong to -/
  copy : Nat
deriving DecidableEq, Repr, Inhabited

/-- The copy that an instruction belongs to, if it is one that the range covers. -/
def coveredCopy? (range : HandlerRange) (e : Emitted) : Option Nat :=
  match e.copy, e.origin with
  | some copy, some origin => if range.covers origin then some copy else none
  | _, _ => none

/-- The stretches of covered instructions from `position` on; `current` is one that is open. -/
def stretches (range : HandlerRange) (position : Nat) (current : Option (Nat × Nat)) :
    List Emitted → List Stretch
  | [] =>
    match current with
    | some (start, copy) => [⟨start, position, copy⟩]
    | none => []
  | e :: rest =>
    let here := coveredCopy? range e
    match current, here with
    | none, none => stretches range (position + 1) none rest
    | none, some copy => stretches range (position + 1) (some (position, copy)) rest
    | some (start, copy), none =>
      ⟨start, position, copy⟩ :: stretches range (position + 1) none rest
    | some (start, copy), some other =>
      if copy = other then stretches range (position + 1) (some (start, copy)) rest
      else ⟨start, position, copy⟩ :: stretches range (position + 1) (some (position, other)) rest

/-- Handlers for copies, and the labels to place before positions of the result. -/
structure Repeated where
  /-- handlers, each one with its copies behind it -/
  handlers : List Handler
  /-- positions with labels, in the order of the labels -/
  labels : List (Nat × Label)
  /-- the next fresh label -/
  nextLabel : Label
deriving Repr, Inhabited

/-- Repeats a handler for each stretch that it covers. -/
def repeatHandler (o : Output) (handler : Handler) (range : HandlerRange) (r : Repeated) :
    Repeated :=
  (stretches range 0 none o.emitted.reverse).foldl (fun r stretch =>
    let start := r.nextLabel
    let stop := start.next
    let names := o.renamings.reverse.getD stretch.copy []
    { handlers := r.handlers ++
        [{ handler with start, stop, entry := (names.lookup handler.entry).getD handler.entry }]
      labels := r.labels ++ [(stretch.start, start), (stretch.stop, stop)]
      nextLabel := stop.next }) { r with handlers := r.handlers ++ [handler] }

/-- Puts labels before the positions that they are for, position by position. -/
def placeBefore (labels : List (Nat × Label)) (instructions : List Instruction) :
    List Instruction :=
  let labelsAt (position : Nat) : List Instruction :=
    (labels.filter (·.1 == position)).map fun (_, l) => .label l
  instructions.zipIdx.flatMap (fun (i, position) => labelsAt position ++ [i]) ++
    labelsAt instructions.length

/-- Replaces every `jsr` by a copy of the subroutine it enters. A body without `jsr` stays as it
is. -/
def inline (c : Code) : Except CodeError Code := do
  if !c.has (fun | .jsr _ => true | _ => false) then return c
  let positions ← liftError CodeError.ofLabel c.labelPositions
  let source : Source := ⟨c, positions⟩
  let start : Output := { emitted := [], renamings := [], nextLabel := c.nextLabel }
  let output ← c.instructions.toList.zipIdx.foldlM (fun (o : Output) (i, index) =>
    match i with
    | .jsr target => source.inlineCall (positions.length + 1) index target [] o
    | i => .ok (o.emit i (some index) none)) start
  let ranges ← liftError CodeError.ofLabel c.handlerRanges
  let repeated := (c.handlers.zip ranges).foldl
    (fun r (handler, range) => repeatHandler output handler range r)
    { handlers := [], labels := [], nextLabel := output.nextLabel }
  let instructions := output.emitted.reverse.map (·.instruction)
  let result := Code.ofInstructions (placeBefore repeated.labels instructions) repeated.handlers
  return { result with maxLocals := c.maxLocals }

end Resumption.Subroutine
