import Resumption.Analysis.StackMap
import Resumption.Proofs.Analysis.Settling

/-!
# Frames in a search tree

The analysis keeps its frames in an array. Evaluated step by step, an array is a list that is copied
up to the place of each frame that is put into it, so a body of a few hundred instructions takes
long. With the frames in a search tree it is the same analysis, and short enough to be part of a
proof.

* **`SearchState.toFlow`** puts the frames of a tree into an array.
* **`settle_toFlow`**: the steps with a tree and those with an array lead to the same frames.
* **`analyzeCode_search`** and **`withMetadata_search`** are the equations to evaluate with.
* **`Method.filled`** has its limits and stack map as the analysis leads to them, but they are not
  looked for before they are used.
-/

namespace Resumption

/-- The state of the analysis with its frames in a search tree. -/
structure SearchState where
  /-- what was found so far -/
  frames : Std.TreeMap Nat Frame
  /-- what is to be visited -/
  worklist : List Nat
  /-- the most words on the stack so far -/
  maxStack : Nat

namespace SearchState

/-- The frame before an instruction of a body with `size` instructions. -/
def frameAt (size : Nat) (s : SearchState) (index : Nat) : Option Frame :=
  if index < size then s.frames[index]? else none

/-- Puts a frame in front of an instruction, and the instruction on the list of those to be visited.
-/
def enqueue (s : SearchState) (target : Nat) (f : Frame) : SearchState :=
  { s with
    frames := s.frames.insert target f
    worklist := if s.worklist.contains target then s.worklist else target :: s.worklist }

/-- The state with the frames in an array. -/
def toFlow (size : Nat) (s : SearchState) : FlowState where
  frames := ((List.range size).map fun index => s.frames[index]?).toArray
  worklist := s.worklist
  maxStack := s.maxStack

variable {size : Nat} {s : SearchState}

/-- The frames of a search as an array: those that were found, where there are instructions. -/
theorem getElem?_toFlow (index : Nat) : (s.toFlow size).frames[index]? =
    if index < size then some s.frames[index]? else none := by
  simp only [toFlow, List.getElem?_toArray, List.getElem?_map]
  split
  · rename_i h
    rw [List.getElem?_range h, Option.map_some]
  · rename_i h
    rw [List.getElem?_eq_none (by simpa using h), Option.map_none]

theorem getD_toFlow (index : Nat) :
    (s.toFlow size).frames.getD index none = s.frameAt size index := by
  rw [Array.getD_eq_getD_getElem?, getElem?_toFlow, frameAt]
  split
  · rfl
  · rfl

theorem getElem?_insert (frames : Std.TreeMap Nat Frame) (target index : Nat) (f : Frame) :
    (frames.insert target f)[index]? = if target = index then some f else frames[index]? := by
  simp only [Std.TreeMap.getElem?_insert, Std.LawfulEqCmp.compare_eq_iff_eq]

/-- Putting a frame in front of an instruction is the same for the search and for the array. -/
theorem toFlow_enqueue (target : Nat) (f : Frame) :
    (s.enqueue target f).toFlow size = (s.toFlow size).enqueue target f := by
  have hframes : ((s.enqueue target f).toFlow size).frames =
      (s.toFlow size).frames.set! target (some f) := by
    apply Array.ext_getElem?
    intro index
    have hsize : (s.toFlow size).frames.size = size := by simp [toFlow]
    rw [Array.set!_eq_setIfInBounds, Array.getElem?_setIfInBounds, getElem?_toFlow, getElem?_toFlow,
      hsize, enqueue, getElem?_insert]
    by_cases hin : index < size
    · by_cases htarget : target = index
      · simp [hin, htarget]
      · simp [hin, htarget]
    · by_cases htarget : target = index
      · simp [hin, htarget]
      · simp [hin, htarget]
  rw [FlowState.enqueue, ← hframes]
  rfl

end SearchState

namespace Flow

variable (flow : Flow) (size : Nat)

/-- `Flow.receive` with the frames in a tree. -/
def receiveSearch (s : SearchState) (edge : Nat × Frame) : Except CodeError SearchState := do
  match s.frameAt size edge.1 with
  | none => return s.enqueue edge.1 edge.2
  | some existing =>
    let merged ← liftError (flow.mergeFailure edge.1 existing edge.2)
      (Frame.merge flow.hierarchy existing edge.2)
    if merged = existing then return s else return s.enqueue edge.1 merged

/-- `Flow.visit` with the frames in a tree. -/
def visitSearch (s : SearchState) (index : Nat) : Except CodeError SearchState := do
  match s.frameAt size index, flow.instructions.toList[index]? with
  | some before, some i =>
    let after ← flow.afterFrame index before i
    let sent ← flow.edges index before after i
    let handled := if flow.handlers.any (·.range.covers index) then 1 else 0
    let s := { s with maxStack := max (max s.maxStack before.words) (max after.words handled) }
    sent.foldlM (flow.receiveSearch size) s
  | _, _ => throw (.noFrame index)

/-- `Flow.settle` with the frames in a tree. -/
def settleSearch : (fuel : Nat) → SearchState → Except CodeError SearchState
  | 0, _ => .error (.unanalyzable .unsettled)
  | fuel + 1, s =>
    match s.worklist with
    | [] => .ok s
    | index :: rest => do settleSearch fuel (← flow.visitSearch size { s with worklist := rest } index)

variable {flow size}

/-- Receiving a frame is the same for the search and for the array. -/
theorem receive_toFlow (s : SearchState) (edge : Nat × Frame) :
    flow.receive (s.toFlow size) edge = (flow.receiveSearch size s edge).map (·.toFlow size) := by
  simp only [receive, receiveSearch, SearchState.getD_toFlow]
  rcases s.frameAt size edge.1 with _ | existing
  · exact congrArg Except.ok (SearchState.toFlow_enqueue ..).symm
  · dsimp only
    rcases liftError (flow.mergeFailure edge.1 existing edge.2)
      (Frame.merge flow.hierarchy existing edge.2) with e | merged
    · rfl
    · simp only [bind, Except.bind]
      split
      · rfl
      · exact congrArg Except.ok (SearchState.toFlow_enqueue ..).symm

/-- Receiving several frames is the same for the search and for the array. -/
theorem receiveAll_toFlow (sent : List (Nat × Frame)) (s : SearchState) :
    sent.foldlM flow.receive (s.toFlow size) =
      (sent.foldlM (flow.receiveSearch size) s).map (·.toFlow size) := by
  induction sent generalizing s with
  | nil => rfl
  | cons edge sent ih =>
    rw [List.foldlM_cons, List.foldlM_cons, receive_toFlow]
    cases flow.receiveSearch size s edge with
    | error e => rfl
    | ok s' => exact ih s'

/-- Visiting an instruction is the same for the search and for the array. -/
theorem visit_toFlow (s : SearchState) (index : Nat) :
    flow.visit (s.toFlow size) index = (flow.visitSearch size s index).map (·.toFlow size) := by
  simp only [visit, visitSearch, SearchState.getD_toFlow, Array.getElem?_toList]
  rcases s.frameAt size index with _ | before
  · rfl
  · rcases flow.instructions[index]? with _ | i
    · rfl
    · dsimp only
      rcases flow.afterFrame index before i with e | after
      · rfl
      · simp only [bind, Except.bind]
        rcases flow.edges index before after i with e | sent
        · rfl
        · dsimp only
          exact receiveAll_toFlow sent { s with
            maxStack := max (max s.maxStack before.words)
              (max after.words (if flow.handlers.any (·.range.covers index) then 1 else 0)) }

/-- **Settling with a tree**: the same errors, and the same frames. -/
theorem settle_toFlow (fuel : Nat) (s : SearchState) :
    flow.settle fuel (s.toFlow size) = (flow.settleSearch size fuel s).map (·.toFlow size) := by
  induction fuel generalizing s with
  | zero => rfl
  | succ fuel ih =>
    simp only [settle, settleSearch, show (s.toFlow size).worklist = s.worklist from rfl]
    cases s.worklist with
    | nil => rfl
    | cons index rest =>
      have hvisit := @visit_toFlow flow size { s with worklist := rest } index
      simp only [SearchState.toFlow] at hvisit ⊢
      rw [hvisit]
      cases flow.visitSearch size { s with worklist := rest } index with
      | error e => rfl
      | ok s' => exact ih s'

end Flow

/-- The state in which the analysis starts. -/
def SearchState.start (entry : Frame) : SearchState where
  frames := .insert ∅ 0 entry
  worklist := [0]
  maxStack := 0

/-- The search and the array begin with the frame on entry. -/
theorem SearchState.toFlow_start {c : Code} {entry : Frame} :
    (SearchState.start entry).toFlow c.instructions.size = .start c entry := by
  have hframes : ((SearchState.start entry).toFlow c.instructions.size).frames =
      (Array.replicate c.instructions.size none).set! 0 (some entry) := by
    apply Array.ext_getElem?
    intro index
    rw [getElem?_toFlow, Array.set!_eq_setIfInBounds, Array.getElem?_setIfInBounds,
      Array.getElem?_replicate, Array.size_replicate, start, getElem?_insert]
    by_cases hin : index < c.instructions.size
    · by_cases hzero : 0 = index
      · simp [hin, hzero]
      · simp [hin, hzero]
    · by_cases hzero : 0 = index
      · simp [hin, hzero]
      · simp [hin, hzero]
  rw [FlowState.start, ← hframes]
  rfl

/-! ## Equations to evaluate with -/

/-- `Flow.visitBound` for a list of instructions. -/
def searchBound (h : Hierarchy) (instructions : List Instruction) (locals : Nat) (entry : Frame) :
    Nat :=
  let size := instructions.length
  let dimensions := instructions.foldl (fun n i => n + i.dimensions) 0 +
    entry.locals.foldl (fun n t => n + t.dimensions) 0
  size * (1 + (locals + 2 * size) * ((h.types.length + 2) * (dimensions + 1) + 1)) + 1

/-- `analyzeCode` with the frames in a tree while they change. -/
def analyzeSearch (h : Hierarchy) (owner : ClassName) (name : MemberName) (d : MethodDescriptor)
    (isStatic : Bool) (c : Code) : Except CodeError Analysis := do
  if c.instructions.isEmpty then throw (.unanalyzable .emptyBody)
  let positions ← liftError CodeError.ofLabel c.labelPositions
  let ranges ← liftError CodeError.ofLabel c.handlerRanges
  let instructions := c.instructions.toList
  let locals := instructions.foldl (fun n i => max n i.localExtent)
    (max c.maxLocals (d.parameterWords !isStatic))
  if 0x10000 ≤ locals then throw (.unanalyzable (.tooManyLocals locals))
  let flow := Flow.ofCode h owner d c positions ranges
  let entry := Frame.entry owner name d isStatic locals
  let settled ← flow.settleSearch c.instructions.size (searchBound h instructions locals entry)
    (.start entry)
  if 0x10000 ≤ settled.maxStack then throw (.unanalyzable (.stackTooDeep settled.maxStack))
  let covering := (Array.range c.instructions.size).map fun index =>
    (flow.handlers.zipIdx.filter (·.1.range.covers index)).map (·.2)
  return { frames := (settled.toFlow c.instructions.size).frames, covering
           maxStack := settled.maxStack, maxLocals := locals }

/-- The bound of the search is the bound of the analysis. -/
theorem searchBound_eq {h : Hierarchy} {owner : ClassName} {d : MethodDescriptor} {c : Code}
    {positions : LabelPositions} {ranges : List HandlerRange} (locals : Nat) (entry : Frame) :
    (Flow.ofCode h owner d c positions ranges).visitBound locals entry =
      searchBound h c.instructions.toList locals entry := by
  simp only [Flow.visitBound, Flow.frameHeight, Flow.slotHeight, Flow.dimensions, Flow.ofCode,
    searchBound, Array.foldl_toList, Array.length_toList]

/-- **The analysis with a tree** is the analysis. -/
theorem analyzeCode_search (h : Hierarchy) (owner : ClassName) (name : MemberName)
    (d : MethodDescriptor) (isStatic : Bool) (c : Code) :
    analyzeCode h owner name d isStatic c = analyzeSearch h owner name d isStatic c := by
  simp only [analyzeCode, analyzeSearch, ← Array.foldl_toList, searchBound_eq,
    ← SearchState.toFlow_start, Flow.settle_toFlow]
  split
  · rfl
  rcases liftError CodeError.ofLabel c.labelPositions with e | positions
  · rfl
  rcases liftError CodeError.ofLabel c.handlerRanges with e | ranges
  · rfl
  simp only [bind, Except.bind]
  split
  · rfl
  generalize Flow.settleSearch _ _ _ _ = settled
  rcases settled with e | settled
  · rfl
  · rfl

/-- Limits and stack map from the analysis with a tree. -/
theorem withMetadata_search (h : Hierarchy) (owner : ClassName) (m : Method) :
    withMetadata h owner m = (do
      let c ← (m.code.elim (.error (.unanalyzable (.noCode m.signature))) .ok : Except _ Code)
      let a ← analyzeSearch h owner m.name m.descriptor m.isStatic c
      let table ← stackMap c a
      return { m with
        code := some
          { c with maxStack := a.maxStack, maxLocals := a.maxLocals, stackMap := some table } }) := by
  rcases hcode : m.code with _ | c
  · simp only [withMetadata, analyze, hcode]
    rfl
  · simp only [withMetadata, analyze, hcode, analyzeCode_search]
    rfl

/-- From what was evaluated back to the result. -/
theorem ok_of_join {ε α : Type} {x : Except ε (Option α)} {a : α}
    (h : x.toOption.join = some a) : x = .ok (some a) := by
  cases x with
  | error e => cases h
  | ok result => exact congrArg Except.ok h

/-- The method with the limits and the stack map of a body. The body itself is there without them,
and so are the locals. -/
def Method.filled (h : Hierarchy) (owner : ClassName) (m : Method) (c : Code) : Method :=
  let analysis := (analyze h owner { m with code := some c }).toOption
  { m with
    code := some { c with
      maxStack := (analysis.map (·.maxStack)).getD 0
      maxLocals := c.instructions.foldl (fun n i => max n i.localExtent)
        (max c.maxLocals (m.descriptor.parameterWords !m.isStatic))
      stackMap := analysis.bind fun a => (stackMap c a).toOption } }

/-- A method with its metadata is the method with the table and the bounds that the analysis gives.
-/
theorem withMetadata_filled {h : Hierarchy} {owner : ClassName} {m m' : Method} {c : Code}
    (hok : withMetadata h owner { m with code := some c } = .ok m') : m' = m.filled h owner c := by
  obtain ⟨a, hanalyze, hok⟩ := Except.bind_ok.mp hok
  obtain ⟨table, htable, hok⟩ := Except.bind_ok.mp hok
  cases hok
  obtain ⟨analyzed⟩ := analyzeCode_analyzed hanalyze
  simp only [Method.filled, hanalyze, Except.toOption, Option.map_some, Option.bind_some, htable,
    Option.getD_some, analyzed.locals_eq]
  rfl

end Resumption
