import Resumption.Analysis.Basic
import Resumption.Proofs.Frame.WellFormed

/-!
# What settling frames keeps true

The analysis takes instructions from a worklist and merges what they send into the frames there.

* **`receive_cases`** and **`visit_cases`** say what one step of it can do.
* **`settle_induction`** carries a property of its state through all steps.
* **`settle_frames`**: what instructions and merging keep true of a frame holds of every frame in the
  end. Frames are well-formed (`analyzeCode_wellFormed`), and no stack is deeper than the limit
  (`analyzeCode_words`).
-/

namespace Resumption

/-- Reading back what was set. -/
theorem getD_set! {α : Type} {xs : Array α} {i j : Nat} {v d : α} :
    (xs.set! i v).getD j d = if i = j ∧ i < xs.size then v else xs.getD j d := by
  simp only [Array.set!_eq_setIfInBounds, Array.getD_eq_getD_getElem?,
    Array.getElem?_setIfInBounds]
  by_cases hij : i = j
  · subst hij
    by_cases hi : i < xs.size
    · simp [hi]
    · simp [hi]
  · simp [hij]

theorem liftError_ok {ε δ α : Type} {f : ε → δ} {x : Except ε α} {a : α}
    (h : liftError f x = .ok a) : x = .ok a := by
  cases x with
  | ok b =>
    cases h
    rfl
  | error e => cases h

namespace FlowState

/-- The frame before an instruction. -/
def frameAt (s : FlowState) (index : Nat) : Option Frame := s.frames.getD index none

/-- The state after a frame was put in place; its instruction is to be visited. -/
def enqueue (s : FlowState) (target : Nat) (f : Frame) : FlowState :=
  { s with
    frames := s.frames.set! target (some f)
    worklist := if s.worklist.contains target then s.worklist else target :: s.worklist }

/-- A frame is the one that was put there, or was there before. -/
theorem frameAt_enqueue {s : FlowState} {target index : Nat} {f g : Frame}
    (h : (s.enqueue target f).frameAt index = some g) :
    (index = target ∧ g = f) ∨ s.frameAt index = some g := by
  simp only [frameAt, enqueue, getD_set!] at h
  split at h
  · rename_i hsame
    cases h
    exact .inl ⟨hsame.1.symm, rfl⟩
  · exact .inr h

/-- An instruction that has a new frame is to be visited, and so is what was to be visited before.
-/
theorem mem_enqueue (s : FlowState) (target : Nat) (f : Frame) :
    target ∈ (s.enqueue target f).worklist ∧
      ∀ index ∈ s.worklist, index ∈ (s.enqueue target f).worklist := by
  simp only [enqueue]
  split
  · exact ⟨List.contains_iff_mem.mp ‹_›, fun _ h => h⟩
  · exact ⟨List.mem_cons_self .., fun _ h => List.mem_cons_of_mem _ h⟩

end FlowState

namespace Flow

variable {flow : Flow} {s s' : FlowState}

/-- What receiving a frame can do. -/
theorem receive_cases {target : Nat} {incoming : Frame}
    (h : flow.receive s (target, incoming) = .ok s') :
    (s' = s ∧ ∃ existing, s.frameAt target = some existing ∧
        Frame.merge flow.hierarchy existing incoming = .ok existing) ∨
      (s.frameAt target = none ∧ s' = s.enqueue target incoming) ∨
      ∃ existing merged, s.frameAt target = some existing ∧
        Frame.merge flow.hierarchy existing incoming = .ok merged ∧ merged ≠ existing ∧
        s' = s.enqueue target merged := by
  simp only [receive] at h
  split at h
  · rename_i hnone
    cases h
    exact .inr (.inl ⟨hnone, rfl⟩)
  · rename_i existing hsome
    obtain ⟨merged, hmerge, h⟩ := Except.bind_ok.mp h
    replace hmerge := liftError_ok hmerge
    split at h
    · rename_i hsame
      cases h
      exact .inl ⟨rfl, existing, hsome, hsame ▸ hmerge⟩
    · rename_i hne
      cases h
      exact .inr (.inr ⟨existing, merged, hsome, hmerge, hne, rfl⟩)

/-- The state in which the frames of a visit are received. -/
def visited (flow : Flow) (s : FlowState) (index : Nat) (before after : Frame) : FlowState :=
  let handled := if flow.handlers.any (·.range.covers index) then 1 else 0
  { s with maxStack := max (max s.maxStack before.words) (max after.words handled) }

/-- What happens when an instruction is visited: its frame is stepped, and what comes of it is sent
on. -/
theorem visit_cases {index : Nat} (h : flow.visit s index = .ok s') :
    ∃ before i after sent, s.frameAt index = some before ∧ flow.instructions[index]? = some i ∧
      flow.afterFrame index before i = .ok after ∧ flow.edges index before after i = .ok sent ∧
      sent.foldlM flow.receive (flow.visited s index before after) = .ok s' := by
  simp only [visit] at h
  split at h
  · rename_i before i hbefore hi
    obtain ⟨after, hafter, h⟩ := Except.bind_ok.mp h
    obtain ⟨sent, hsent, h⟩ := Except.bind_ok.mp h
    exact ⟨before, i, after, sent, hbefore, hi, hafter, hsent, h⟩
  · cases h

/-- A property that receiving keeps holds after a visit. -/
theorem foldlM_receive {P : FlowState → Prop} {sent : List (Nat × Frame)}
    (hreceive : ∀ s s' edge, edge ∈ sent → P s → flow.receive s edge = .ok s' → P s')
    (h : sent.foldlM flow.receive s = .ok s') (hs : P s) : P s' := by
  induction sent generalizing s with
  | nil =>
    cases h
    exact hs
  | cons edge sent ih =>
    rw [List.foldlM_cons] at h
    obtain ⟨s₁, hfirst, h⟩ := Except.bind_ok.mp h
    exact ih (fun s s' e he => hreceive s s' e (List.mem_cons_of_mem _ he)) h
      (hreceive s s₁ edge (List.mem_cons_self ..) hs hfirst)

/-- A property that visits keep holds in the end, when there is nothing left to visit. -/
theorem settle_induction {P : FlowState → Prop}
    (hvisit : ∀ s s' index rest, s.worklist = index :: rest → P s →
      flow.visit { s with worklist := rest } index = .ok s' → P s')
    {fuel : Nat} (h : flow.settle fuel s = .ok s') (hs : P s) : P s' ∧ s'.worklist = [] := by
  induction fuel generalizing s with
  | zero => cases h
  | succ fuel ih =>
    simp only [settle] at h
    split at h
    · rename_i hempty
      cases h
      exact ⟨hs, hempty⟩
    · rename_i index rest hnext
      obtain ⟨s₁, hfirst, h⟩ := Except.bind_ok.mp h
      exact ih h (hvisit s s₁ index rest hnext hs hfirst)

/-- The frame after an instruction is what its step gives. -/
theorem afterFrame_step {index : Nat} {before after : Frame} {i : Instruction}
    (h : flow.afterFrame index before i = .ok after) :
    before.step flow.context index i = .ok after := by
  simp only [afterFrame] at h
  split at h
  · cases h
  · cases h
  · exact liftError_ok h

/-- The frames that an instruction sends come from the frames before and after it. -/
theorem edges_cases {index : Nat} {before after : Frame} {i : Instruction}
    {sent : List (Nat × Frame)} (h : flow.edges index before after i = .ok sent) :
    ∀ edge ∈ sent, edge.2 = after ∨ ∃ handler ∈ flow.handlers,
      Frame.merge flow.hierarchy (before.handler handler.caught) (after.handler handler.caught) =
        .ok edge.2 := by
  obtain ⟨toHandlers, hhandlers, h⟩ := Except.bind_ok.mp h
  obtain ⟨toTargets, htargets, h⟩ := Except.bind_ok.mp h
  have hto : ∀ edge ∈ toHandlers ++ toTargets, edge.2 = after ∨ ∃ handler ∈ flow.handlers,
      Frame.merge flow.hierarchy (before.handler handler.caught) (after.handler handler.caught) =
        .ok edge.2 := by
    intro edge hedge
    rcases List.mem_append.mp hedge with hedge | hedge
    · obtain ⟨k, hk⟩ := List.mem_iff_getElem?.mp hedge
      obtain ⟨handler, hhandler, hok⟩ := (Frame.mapM_ok hhandlers).2 k edge hk
      obtain ⟨merged, hmerge, hok⟩ := Except.bind_ok.mp hok
      cases hok
      exact .inr ⟨handler, (List.mem_filter.mp (List.mem_of_getElem? hhandler)).1,
        liftError_ok hmerge⟩
    · obtain ⟨k, hk⟩ := List.mem_iff_getElem?.mp hedge
      obtain ⟨target, -, hok⟩ := (Frame.mapM_ok htargets).2 k edge hk
      obtain ⟨position, -, hok⟩ := Except.bind_ok.mp hok
      cases hok
      exact .inl rfl
  split at h
  · split at h
    · cases h
      intro edge hedge
      rcases List.mem_append.mp hedge with hedge | hedge
      · exact hto edge hedge
      · exact .inl (congrArg Prod.snd (List.mem_singleton.mp hedge))
    · cases h
  · cases h
    exact hto

/-- **Frames in the end.** What instructions, handlers and merging keep true of a frame holds of
every frame once there is nothing left to visit. -/
theorem settle_frames {P : Frame → Prop}
    (hstep : ∀ f f' index i, P f → f.step flow.context index i = .ok f' → P f')
    (hhandler : ∀ f caught, P f → P (f.handler caught))
    (hmerge : ∀ a b f, P a → P b → Frame.merge flow.hierarchy a b = .ok f → P f)
    {fuel : Nat} (h : flow.settle fuel s = .ok s') (hs : ∀ index f, s.frameAt index = some f → P f) :
    ∀ index f, s'.frameAt index = some f → P f := by
  refine (settle_induction (P := fun s => ∀ index f, s.frameAt index = some f → P f) ?_ h hs).1
  intro s s' index rest _ hs hvisit
  obtain ⟨before, i, after, sent, hbefore, -, hafter, hsent, hreceive⟩ := visit_cases hvisit
  have hP : P before := hs index before hbefore
  have hP' : P after := hstep _ _ _ _ hP (afterFrame_step hafter)
  have hedge : ∀ edge ∈ sent, P edge.2 := by
    intro edge hin
    rcases edges_cases hsent edge hin with heq | ⟨handler, -, hok⟩
    · rw [heq]
      exact hP'
    · exact hmerge _ _ _ (hhandler _ _ hP) (hhandler _ _ hP') hok
  refine foldlM_receive (P := fun s => ∀ index f, s.frameAt index = some f → P f) ?_ hreceive hs
  rintro s s' ⟨target, incoming⟩ hin hs hok
  rcases receive_cases hok with ⟨rfl, -⟩ | ⟨-, rfl⟩ | ⟨existing, merged, hexisting, hmerged, -, rfl⟩
  · exact hs
  · intro index f hf
    rcases FlowState.frameAt_enqueue hf with ⟨-, rfl⟩ | hf
    · exact hedge _ hin
    · exact hs index f hf
  · intro index f hf
    rcases FlowState.frameAt_enqueue hf with ⟨-, rfl⟩ | hf
    · exact hmerge _ _ _ (hs target existing hexisting) (hedge _ hin) hmerged
    · exact hs index f hf

/-- What is known of a frame once its instruction was visited. It may depend on the greatest stack
that was seen, which only grows. -/
theorem settle_visited {Q : Nat → Nat → Frame → Prop}
    (hgrow : ∀ {n n' index f}, n ≤ n' → Q n index f → Q n' index f)
    (hvisited : ∀ s index before i after, flow.instructions[index]? = some i →
      flow.afterFrame index before i = .ok after →
      Q (flow.visited s index before after).maxStack index before)
    {fuel : Nat} (h : flow.settle fuel s = .ok s')
    (hs : ∀ index f, s.frameAt index = some f → index ∈ s.worklist) :
    ∀ index f, s'.frameAt index = some f → Q s'.maxStack index f := by
  have hend := settle_induction (P := fun s => ∀ index f, s.frameAt index = some f →
    index ∈ s.worklist ∨ Q s.maxStack index f) ?_ h fun index f hf => .inl (hs index f hf)
  · intro index f hf
    rcases hend.1 index f hf with hin | hQ
    · rw [hend.2] at hin
      cases hin
    · exact hQ
  intro s s' index rest hnext hs hvisit
  obtain ⟨before, i, after, sent, hbefore, hi, hafter, -, hreceive⟩ := visit_cases hvisit
  -- the visited instruction has left the worklist, but now its frame is known
  have hstart : ∀ k f, (flow.visited { s with worklist := rest } index before after).frameAt k =
      some f → k ∈ rest ∨
        Q (flow.visited { s with worklist := rest } index before after).maxStack k f := by
    intro k f hf
    rcases hs k f hf with hin | hQ
    · rw [hnext] at hin
      rcases List.mem_cons.mp hin with rfl | hin
      · have hsame : before = f := Option.some.inj (hbefore.symm.trans hf)
        subst hsame
        exact .inr (hvisited _ _ _ i _ hi hafter)
      · exact .inl hin
    · exact .inr (hgrow (by simp only [visited]; omega) hQ)
  refine foldlM_receive (P := fun s => ∀ index f, s.frameAt index = some f →
    index ∈ s.worklist ∨ Q s.maxStack index f) ?_ hreceive hstart
  have henqueue : ∀ (s : FlowState) target g, (∀ index f, s.frameAt index = some f →
      index ∈ s.worklist ∨ Q s.maxStack index f) → ∀ index f,
      (s.enqueue target g).frameAt index = some f →
      index ∈ (s.enqueue target g).worklist ∨ Q (s.enqueue target g).maxStack index f := by
    intro s target g hs index f hf
    obtain ⟨htarget, hothers⟩ := s.mem_enqueue target g
    rcases FlowState.frameAt_enqueue hf with ⟨rfl, -⟩ | hf
    · exact .inl htarget
    · exact (hs index f hf).imp_left (hothers index)
  rintro s s' ⟨target, incoming⟩ - hs hok
  rcases receive_cases hok with ⟨rfl, -⟩ | ⟨-, rfl⟩ | ⟨existing, merged, -, -, -, rfl⟩
  · exact hs
  · exact henqueue s target incoming hs
  · exact henqueue s target merged hs

/-- A frame whose instruction was visited was measured then. -/
theorem settle_words {fuel : Nat} (h : flow.settle fuel s = .ok s')
    (hs : ∀ index f, s.frameAt index = some f → index ∈ s.worklist) :
    ∀ index f, s'.frameAt index = some f → f.words ≤ s'.maxStack :=
  settle_visited (Q := fun n _ f => f.words ≤ n) (fun hle h => Nat.le_trans h hle)
    (fun s index before i after _ _ => by simp only [visited]; omega) h hs

/-- The instruction at a frame has an effect on it. -/
theorem settle_steps {fuel : Nat} (h : flow.settle fuel s = .ok s')
    (hs : ∀ index f, s.frameAt index = some f → index ∈ s.worklist) :
    ∀ index f, s'.frameAt index = some f → ∃ i after, flow.instructions[index]? = some i ∧
      f.step flow.context index i = .ok after :=
  settle_visited (Q := fun _ index f => ∃ i after, flow.instructions[index]? = some i ∧
      f.step flow.context index i = .ok after) (fun _ h => h)
    (fun _ _ _ i after hi hafter => ⟨i, after, hi, afterFrame_step hafter⟩) h hs

end Flow

/-! ## Analyzed bodies -/

section

variable {h : Hierarchy} {owner : ClassName} {name : MemberName} {d : MethodDescriptor}
  {isStatic : Bool} {c : Code} {a : Analysis}

/-- What an analysis that succeeds went through. -/
structure Analyzed (h : Hierarchy) (owner : ClassName) (name : MemberName) (d : MethodDescriptor)
    (isStatic : Bool) (c : Code) (a : Analysis) where
  /-- where labels are -/
  positions : LabelPositions
  /-- where handlers are in force -/
  ranges : List HandlerRange
  /-- the end of the analysis -/
  settled : FlowState
  /-- there is something to analyze -/
  nonempty : 0 < c.instructions.size
  /-- labels are placed once -/
  positions_eq : c.labelPositions = .ok positions
  /-- labels of handlers are placed -/
  ranges_eq : c.handlerRanges = .ok ranges
  /-- variables are counted as instructions use them -/
  locals_eq : a.maxLocals = c.instructions.foldl (fun n i => max n i.localExtent)
    (max c.maxLocals (d.parameterWords !isStatic))
  /-- they can all be addressed -/
  locals_lt : a.maxLocals < 0x10000
  /-- the analysis comes to this end -/
  settle_eq : (Flow.ofCode h owner d c positions ranges).settle
    ((Flow.ofCode h owner d c positions ranges).visitBound a.maxLocals
      (Frame.entry owner name d isStatic a.maxLocals))
    (FlowState.start c (Frame.entry owner name d isStatic a.maxLocals)) = .ok settled
  /-- its frames are the result -/
  frames_eq : a.frames = settled.frames
  /-- its depth is the result -/
  stack_eq : a.maxStack = settled.maxStack
  /-- the depth can be written -/
  stack_lt : a.maxStack < 0x10000

/-- Everything that a successful analysis has found out. -/
theorem analyzeCode_analyzed (hok : analyzeCode h owner name d isStatic c = .ok a) :
    Nonempty (Analyzed h owner name d isStatic c a) := by
  simp only [analyzeCode, bind, Except.bind] at hok
  split at hok
  · cases hok
  rename_i hnonempty
  split at hok
  · cases hok
  rename_i positions hpositions
  split at hok
  · cases hok
  rename_i ranges hranges
  split at hok
  · cases hok
  rename_i hlocals
  split at hok
  · cases hok
  rename_i settled hsettled
  split at hok
  · cases hok
  rename_i hstack
  cases hok
  exact ⟨{
    positions, ranges, settled
    nonempty := Nat.pos_of_ne_zero (by simpa using hnonempty)
    positions_eq := liftError_ok hpositions, ranges_eq := liftError_ok hranges
    locals_eq := rfl, locals_lt := Nat.not_le.mp hlocals, settle_eq := hsettled
    frames_eq := rfl, stack_eq := rfl, stack_lt := Nat.not_le.mp hstack }⟩

/-- In the beginning there is only the frame on entry. -/
theorem FlowState.frameAt_start {entry f : Frame} {index : Nat}
    (hf : (start c entry).frameAt index = some f) : index = 0 ∧ f = entry := by
  simp only [start, frameAt, getD_set!] at hf
  split at hf
  · rename_i hzero
    cases hf
    exact ⟨hzero.1.symm, rfl⟩
  · simp only [Array.getD_eq_getD_getElem?, Array.getElem?_replicate] at hf
    split at hf <;> cases hf

/-- A value takes as many variables as it has words. -/
theorem Frame.slotsOf_length (t : FieldType) : (Frame.slotsOf (.ofField t)).length = t.width := by
  match t with
  | .base .float | .base .long | .base .double | .base .boolean | .base .byte | .base .char
  | .base .short | .base .int | .ref _ => rfl

/-- The arguments fit into the locals. -/
theorem Frame.arguments_length (owner : ClassName) (name : MemberName) (d : MethodDescriptor)
    (isStatic : Bool) :
    (Frame.arguments owner name d isStatic).length = d.parameterWords !isStatic := by
  have hwords : ∀ (parameters : List FieldType) n, parameters.foldl (fun n t => n + t.width) n =
      n + (parameters.flatMap fun t => Frame.slotsOf (.ofField t)).length := by
    intro parameters
    induction parameters with
    | nil => exact fun _ => rfl
    | cons t parameters ih =>
      intro n
      rw [List.foldl_cons, ih, List.flatMap_cons, List.length_append, slotsOf_length, Nat.add_assoc]
  rw [MethodDescriptor.parameterWords, hwords, Frame.arguments, List.length_append]
  cases isStatic <;> rfl

theorem le_foldl_max {α : Type} (f : α → Nat) (xs : List α) (n : Nat) :
    n ≤ xs.foldl (fun n x => max n (f x)) n := by
  induction xs generalizing n with
  | nil => exact Nat.le_refl n
  | cons x xs ih => exact Nat.le_trans (Nat.le_max_left n (f x)) (ih _)

theorem le_foldl_max_of_mem {α : Type} (f : α → Nat) {xs : List α} {x : α} (hx : x ∈ xs) (n : Nat) :
    f x ≤ xs.foldl (fun n x => max n (f x)) n := by
  induction xs generalizing n with
  | nil => cases hx
  | cons y xs ih =>
    rcases List.mem_cons.mp hx with rfl | hx
    · exact Nat.le_trans (Nat.le_max_right n (f x)) (le_foldl_max f xs _)
    · exact ih hx _

/-- There is room for the arguments. -/
theorem Analyzed.arguments_le (analyzed : Analyzed h owner name d isStatic c a) :
    (Frame.arguments owner name d isStatic).length ≤ a.maxLocals := by
  rw [Frame.arguments_length, analyzed.locals_eq, ← Array.foldl_toList]
  exact Nat.le_trans (Nat.le_max_right _ _) (le_foldl_max _ _ _)

/-- There is room for the variables of every instruction. -/
theorem Analyzed.extent_le (analyzed : Analyzed h owner name d isStatic c a) {index : Nat}
    {i : Instruction} (hi : c.instructions[index]? = some i) : i.localExtent ≤ a.maxLocals := by
  rw [analyzed.locals_eq, ← Array.foldl_toList]
  exact le_foldl_max_of_mem _ (Array.mem_toList_iff.mpr (Array.mem_of_getElem? hi)) _

/-- Every frame of an analyzed body is well-formed. -/
theorem analyzeCode_wellFormed (hok : analyzeCode h owner name d isStatic c = .ok a) {index : Nat}
    {f : Frame} (hf : a.frames.getD index none = some f) : f.WellFormed a.maxLocals := by
  obtain ⟨analyzed⟩ := analyzeCode_analyzed hok
  rw [analyzed.frames_eq] at hf
  refine Flow.settle_frames (fun _ _ _ _ => Frame.step_wellFormed)
    (fun f caught hf => hf.handler caught) (fun _ _ _ => Frame.merge_wellFormed)
    analyzed.settle_eq (fun k f hf => ?_) index f hf
  obtain ⟨-, rfl⟩ := FlowState.frameAt_start hf
  exact Frame.entry_wellFormed analyzed.arguments_le

/-- No stack of an analyzed body is deeper than the greatest one. -/
theorem Analyzed.words_le (analyzed : Analyzed h owner name d isStatic c a) {index : Nat} {f : Frame}
    (hf : a.frames.getD index none = some f) : f.words ≤ a.maxStack := by
  rw [analyzed.frames_eq] at hf
  rw [analyzed.stack_eq]
  refine Flow.settle_words analyzed.settle_eq (fun k f hf => ?_) index f hf
  obtain ⟨rfl, -⟩ := FlowState.frameAt_start hf
  exact List.mem_singleton.mpr rfl

/-- No stack of an analyzed body is deeper than the limit. -/
theorem analyzeCode_words (hok : analyzeCode h owner name d isStatic c = .ok a) {index : Nat}
    {f : Frame} (hf : a.frames.getD index none = some f) : f.words < 0x10000 := by
  obtain ⟨analyzed⟩ := analyzeCode_analyzed hok
  exact Nat.lt_of_le_of_lt (analyzed.words_le hf) analyzed.stack_lt

/-- Every instruction with a frame has an effect on it. -/
theorem analyzeCode_steps (hok : analyzeCode h owner name d isStatic c = .ok a) {index : Nat}
    {f : Frame} (hf : a.frames.getD index none = some f) :
    ∃ i after, c.instructions[index]? = some i ∧ f.step ⟨owner, d.result⟩ index i = .ok after := by
  obtain ⟨analyzed⟩ := analyzeCode_analyzed hok
  rw [analyzed.frames_eq] at hf
  refine Flow.settle_steps analyzed.settle_eq (fun k f hf => ?_) index f hf
  obtain ⟨rfl, -⟩ := FlowState.frameAt_start hf
  exact List.mem_singleton.mpr rfl

end

end Resumption
