import Resumption.Proofs.Analysis.Searching
import Resumption.Proofs.Analysis.StackMaps
import Resumption.Proofs.Analysis.Termination
import Resumption.Proofs.Analysis.Upkeep
import Resumption.Proofs.Frame.Mirroring
import Resumption.Proofs.Instrument.Blaming

/-!
# Frames known in advance

Sometimes frames for a body are known before it is analyzed. If each instruction accepts the frame
for it, and what it sends suits the frames for those it sends it to, then the analysis stays below:

* **`Flow.Bounds`** says so of an assignment of frames, for a body with its labels resolved, and
  **`Code.Bounds`** for a body with labels.
* **`Flow.visit_below`** is what one visit keeps, `Flow.settle_below` what all visits keep.
* **`analyzeCode_below`**: the analysis fails only if a class is missing, if something is too large or
  if the hierarchy has cycles, and all its frames suit those that were known. Whether frames suit does
  not depend on classes.
* **`withMetadata_eq`**: a method gets its stack map if its body can be analyzed, so the stack map
  does not have to be made to know that it is there.
-/

namespace Resumption

/-- Is this the error of a missing class? -/
def CodeError.Missing (e : CodeError) : Prop := ∃ name, e = .missingClass name

section

variable {known : Nat → Option Frame} {size : Nat}

/-- Does a frame suit the one that is known for an instruction? -/
def Frame.Within (known : Nat → Option Frame) (size index : Nat) (f : Frame) : Prop :=
  ∃ g, known index = some g ∧ f.Suits id size g

/-- A frame of the analysis, below the one that is known. -/
structure Frame.Below (known : Nat → Option Frame) (size index : Nat) (f : Frame) : Prop where
  /-- the frame has a shape that is known -/
  wellFormed : f.WellFormed size
  /-- it is below the frame that is known there -/
  within : f.Within known size index

/-- What suits a frame that is within bounds is within them. -/
theorem Frame.Within.of_suits {index : Nat} {f g : Frame} (hfg : f.Suits id size g)
    (hg : g.Within known size index) : f.Within known size index := by
  obtain ⟨k, hk, hgk⟩ := hg
  exact ⟨k, hk, hfg.trans hgk⟩

/-- What a handler finds in the one suits what it finds in the other. -/
theorem Frame.Suits.handler {place : Nat → Nat} {f g : Frame} (hfg : f.Suits place size g)
    (caught : Option ClassName) : (f.handler caught).Suits place size (g.handler caught) :=
  ⟨hfg.locals, .cons ⟨nofun, .same nofun⟩ .nil⟩

/-- **Frames that suit the same frame** can be merged, unless a class is missing. -/
theorem Frame.Suits.merge_fails {h : Hierarchy} {place : Nat → Nat} {a b g : Frame}
    (ha : a.Suits place size g) (hb : b.Suits place size g) :
    FailsOnly (fun e => ∃ c, e = .missing c) (Frame.merge h a b) := by
  have hknown : ∀ {α : Type} (x : Known α), FailsOnly (fun e => ∃ c, e = .missing c) (known x) := by
    rintro α (_ | _)
    · exact .error ⟨_, rfl⟩
    · exact .ok _
  have hdepth : a.stack.length = b.stack.length :=
    ha.stack.length_eq.trans hb.stack.length_eq.symm
  rw [Frame.merge, if_neg (not_not.mpr hdepth)]
  refine FailsOnly.bind ?_ fun _ _ => (hknown _).bind fun _ _ => .ok _
  refine FailsOnly.bind (.mapM fun p hp => ?_) fun _ _ => .ok _
  obtain ⟨v, hv, ht, hu⟩ := ha.stack.of_mem_zip hb.stack (List.mem_reverse.mp hp)
  exact fun e => mergeOnStack_error hv ht hu

namespace Flow

variable {flow : Flow}

/-- Frames that each instruction accepts, and under which what it sends stays. -/
structure Bounds (flow : Flow) (size : Nat) (known : Nat → Option Frame) : Prop where
  /-- instructions use no other variables -/
  extent : ∀ i ∈ flow.instructions, i.localExtent ≤ size
  /-- every frame that is known can be stepped from, and what comes of it is known -/
  step : ∀ {index f}, known index = some f → ∃ i after, flow.instructions[index]? = some i ∧
    f.step flow.context index i = .ok after ∧
    (∀ l ∈ i.targets, ∃ target, flow.positions.find l = .ok target ∧
      after.Within known size target) ∧
    (i.fallsThrough = true → after.Within known size (index + 1)) ∧
    ∀ x ∈ flow.handlers, x.range.covers index = true →
      (f.handler x.caught).Within known size x.range.entry ∧
      (after.handler x.caught).Within known size x.range.entry

/-- Are all frames of the state below those that are known? -/
def StaysBelow (known : Nat → Option Frame) (size : Nat) (s : FlowState) : Prop :=
  ∀ index f, s.frameAt index = some f → f.Below known size index

/-- The frame after an instruction is what its step gives. -/
theorem afterFrame_of_step {index : Nat} {before after : Frame} {i : Instruction}
    (h : before.step flow.context index i = .ok after) :
    flow.afterFrame index before i = .ok after := by
  cases i with
  | jsr | ret => cases h
  | _ => simp only [afterFrame, h, liftError]

/-- An instruction with a frame below the one that is known. -/
theorem Bounds.visits (hb : flow.Bounds size known) {index : Nat} {before : Frame}
    (hbefore : before.Below known size index) :
    ∃ i after, flow.instructions[index]? = some i ∧ flow.afterFrame index before i = .ok after ∧
      FailsOnly CodeError.Missing (flow.edges index before after i) ∧
      ∀ sent, flow.edges index before after i = .ok sent →
        ∀ e ∈ sent, e.2.Below known size e.1 := by
  obtain ⟨hwellFormed, f, hf, hsuits⟩ := hbefore
  obtain ⟨i, after', hi, hstep', htargets, hnext, hhandlers⟩ := hb.step hf
  have hextent := hb.extent i (Array.mem_of_getElem? hi)
  obtain ⟨after, hstep, hafter⟩ : ∃ after, before.step flow.context index i = .ok after ∧
      after.Suits id size after' :=
    hsuits.step Function.injective_id (fun _ _ => rfl) hextent after' hstep'
  have hafterFrame := afterFrame_of_step hstep
  -- both frames that go to a handler suit the one that is known there
  have hcaught : ∀ x ∈ flow.handlers, x.range.covers index = true → ∃ g,
      known x.range.entry = some g ∧ (before.handler x.caught).Suits id size g ∧
        (after.handler x.caught).Suits id size g := by
    intro x hx hcovers
    obtain ⟨⟨g, hg, hfg⟩, ⟨g', hg', hfg'⟩⟩ := hhandlers x hx hcovers
    obtain rfl := Option.some.inj (hg.symm.trans hg')
    exact ⟨g, hg, (hsuits.handler _).trans hfg, (hafter.handler _).trans hfg'⟩
  refine ⟨i, after, hi, hafterFrame, ?_, fun sent hsent e he => ?_⟩
  · refine FailsOnly.bind (.mapM fun x hx => ?_) fun _ _ => FailsOnly.bind (.mapM fun l hl => ?_)
      fun _ _ => ?_
    · obtain ⟨hx, hcovers⟩ := List.mem_filter.mp hx
      obtain ⟨g, -, hfg, hfg'⟩ := hcaught x hx hcovers
      refine FailsOnly.bind ((hfg.merge_fails hfg').lift fun e he => ?_) fun _ _ => .ok _
      obtain ⟨c, rfl⟩ := he
      exact ⟨_, rfl⟩
    · obtain ⟨target, htarget, -⟩ := htargets l hl
      rw [jumpEdge, htarget]
      exact .ok _
    · split
      · rename_i hfalls
        obtain ⟨g, hg, -⟩ := hnext hfalls
        obtain ⟨_, _, hi', -⟩ := hb.step hg
        rw [if_pos (Array.getElem?_eq_some_iff.mp hi').1]
        exact .ok _
      · exact .ok _
  · refine ⟨(sent_upheld (Frame.upheld_wellFormed _ _) hwellFormed hafterFrame).2 sent hsent e he, ?_⟩
    obtain ⟨toHandlers, toTargets, hto, htoTargets, hlast⟩ := edges_inv hsent
    have hearlier : e ∈ toHandlers ++ toTargets → e.2.Within known size e.1 := by
      intro he
      rcases List.mem_append.mp he with he | he
      · obtain ⟨x, hx, hedge⟩ := (mem_of_forall₂ hto).2 e he
        obtain ⟨hx, hcovers⟩ := List.mem_filter.mp hx
        obtain ⟨hentry, hmerged⟩ := handlerEdge_ok.mp hedge
        obtain ⟨g, hg, hfg, hfg'⟩ := hcaught x hx hcovers
        have hwellFormed' := (sent_upheld (Frame.upheld_wellFormed _ _) hwellFormed hafterFrame).1
        exact ⟨g, hentry ▸ hg, Frame.Suits.merge (hwellFormed.handler _) (hwellFormed'.handler _)
          hfg hfg' hmerged⟩
      · obtain ⟨l, hl, hedge⟩ := (mem_of_forall₂ htoTargets).2 e he
        obtain ⟨hfind, hframe⟩ := jumpEdge_ok.mp hedge
        obtain ⟨target, htarget, hwithin⟩ := htargets l hl
        obtain rfl := Except.ok.inj (htarget.symm.trans hfind)
        exact hframe ▸ .of_suits hafter hwithin
    rcases hlast with ⟨hfalls, -, rfl⟩ | ⟨-, rfl⟩
    · rcases List.mem_append.mp he with he | he
      · exact hearlier he
      · obtain rfl := List.mem_singleton.mp he
        exact .of_suits hafter (hnext hfalls)
    · exact hearlier he

/-- Receiving a frame that is below the one that is known. -/
theorem StaysBelow.receive {s : FlowState} (hs : StaysBelow known size s) {e : Nat × Frame}
    (he : e.2.Below known size e.1) :
    FailsOnly CodeError.Missing (flow.receive s e) ∧
      ∀ s', flow.receive s e = .ok s' → StaysBelow known size s' := by
  obtain ⟨target, incoming⟩ := e
  obtain ⟨hwellFormed, g, hg, hsuits⟩ := he
  have hexisting : ∀ existing, s.frameAt target = some existing →
      existing.WellFormed size ∧ existing.Suits id size g := by
    intro existing hexisting
    obtain ⟨hwellFormed, g', hg', hsuits⟩ := hs target existing hexisting
    obtain rfl := Option.some.inj (hg.symm.trans hg')
    exact ⟨hwellFormed, hsuits⟩
  constructor
  · rw [Flow.receive]
    split
    · exact .ok _
    · rename_i existing hframe
      refine FailsOnly.bind (((hexisting existing hframe).2.merge_fails hsuits).lift
        fun e he => ?_) fun _ _ => ?_
      · obtain ⟨c, rfl⟩ := he
        exact ⟨_, rfl⟩
      · split <;> exact .ok _
  · intro s' hreceive
    rcases receive_cases hreceive with
      ⟨rfl, -⟩ | ⟨-, rfl⟩ | ⟨existing, merged, hframe, hmerged, -, rfl⟩
    · exact hs
    · intro index f hf
      rcases FlowState.frameAt_enqueue hf with ⟨rfl, rfl⟩ | hf
      · exact ⟨hwellFormed, g, hg, hsuits⟩
      · exact hs index f hf
    · intro index f hf
      rcases FlowState.frameAt_enqueue hf with ⟨rfl, rfl⟩ | hf
      · obtain ⟨hwellFormed', hsuits'⟩ := hexisting existing hframe
        exact ⟨Frame.merge_wellFormed hwellFormed' hwellFormed hmerged, g, hg,
          Frame.Suits.merge hwellFormed' hwellFormed hsuits' hsuits hmerged⟩
      · exact hs index f hf

/-- **One visit.** It fails only if a class is missing, and leaves all frames below. -/
theorem visit_below (hb : flow.Bounds size known) {s : FlowState} {index : Nat} {rest : List Nat}
    (hready : flow.Ready s) (hs : StaysBelow known size s) (hnext : s.worklist = index :: rest) :
    FailsOnly CodeError.Missing (flow.visit { s with worklist := rest } index) ∧
      ∀ s', flow.visit { s with worklist := rest } index = .ok s' → StaysBelow known size s' := by
  obtain ⟨hframe, -⟩ := hready.worklist index (hnext ▸ List.mem_cons_self ..)
  obtain ⟨before, hbefore⟩ := Option.isSome_iff_exists.mp hframe
  obtain ⟨i, after, hi, hafter, hfails, hsent⟩ := hb.visits (hs index before hbefore)
  have hframe : s.frames.getD index none = some before := hbefore
  constructor
  · simp only [visit, hframe, hi, hafter]
    refine FailsOnly.bind (.ok _) fun after' hafter' => ?_
    obtain rfl : after = after' := Except.ok.inj hafter'
    refine hfails.bind fun sent hedges => ?_
    exact FailsOnly.foldlM (Q := StaysBelow known size) hs fun e he s hs =>
      hs.receive (hsent sent hedges e he)
  · intro s' hvisit
    obtain ⟨before', i', after', sent, hbefore', hi', hafter', hedges, hreceive⟩ :=
      visit_cases hvisit
    obtain rfl : before = before' := Option.some.inj (hbefore.symm.trans hbefore')
    obtain rfl : i = i' := Option.some.inj (hi.symm.trans hi')
    obtain rfl : after = after' := Except.ok.inj (hafter.symm.trans hafter')
    exact foldlM_receive (fun s s' e he hs => (hs.receive (hsent sent hedges e he)).2 s') hreceive hs

/-- **All visits.** -/
theorem settle_below (hplaced : flow.Placed) (hb : flow.Bounds size known) (fuel : Nat)
    {s : FlowState} (hready : flow.Ready s) (hs : StaysBelow known size s) :
    FailsOnly (fun e => e.Missing ∨ e = .unanalyzable .unsettled) (flow.settle fuel s) ∧
      ∀ s', flow.settle fuel s = .ok s' → StaysBelow known size s' := by
  induction fuel generalizing s with
  | zero => exact ⟨.error (.inr rfl), nofun⟩
  | succ fuel ih =>
    rw [settle]
    split
    · exact ⟨.ok _, fun s' hs' => by cases hs'; exact hs⟩
    · rename_i index rest hnext
      obtain ⟨hfails, hbelow⟩ := visit_below hb hready hs hnext
      have hready' := (visit_blameless hplaced hready hnext).2
      refine ⟨(hfails.imp fun _ => .inl).bind fun s₁ hs₁ => (ih (hready' s₁ hs₁) (hbelow s₁ hs₁)).1,
        fun s' hs' => ?_⟩
      obtain ⟨s₁, hs₁, hs'⟩ := Except.bind_ok.mp hs'
      exact (ih (hready' s₁ hs₁) (hbelow s₁ hs₁)).2 s' hs'

end Flow

/-! ## Bodies with labels -/

/-- Frames that each instruction accepts, and under which what it sends stays. -/
structure Code.Bounds (c : Code) (context : MethodContext) (size : Nat)
    (known : Nat → Option Frame) : Prop where
  /-- instructions use no other variables -/
  extent : ∀ i ∈ c.instructions, i.localExtent ≤ size
  /-- every frame that is known can be stepped from, and what comes of it is known -/
  step : ∀ {index f}, known index = some f → ∃ i after, c.instructions[index]? = some i ∧
    f.step context index i = .ok after ∧
    (∀ l ∈ i.targets, ∃ target, c.instructions[target]? = some (.label l) ∧
      after.Within known size target) ∧
    (i.fallsThrough = true → after.Within known size (index + 1)) ∧
    ∀ x target, c.Edge index (some x) target →
      (f.handler x.caught).Within known size target ∧
      (after.handler x.caught).Within known size target

/-- Fewer variables are bounded more easily. -/
theorem Frame.Within.mono {index size' : Nat} {f : Frame} (hf : f.Within known size index)
    (hle : size' ≤ size) : f.Within known size' index := by
  obtain ⟨g, hg, hfg⟩ := hf
  exact ⟨g, hg, hfg.mono hle⟩

variable {h : Hierarchy} {owner : ClassName} {name : MemberName} {d : MethodDescriptor}
  {isStatic : Bool} {c : Code} {positions : LabelPositions} {ranges : List HandlerRange}

/-- Labels can be resolved; and no instruction touches more locals than there are. -/
theorem Code.Bounds.flow (hb : c.Bounds ⟨owner, d.result⟩ size known)
    (hpositions : c.labelPositions = .ok positions) (hranges : c.handlerRanges = .ok ranges)
    {size' : Nat} (hle : size' ≤ size) (hextent : ∀ i ∈ c.instructions, i.localExtent ≤ size') :
    (Flow.ofCode h owner d c positions ranges).Bounds size' known where
  extent := hextent
  step := by
    intro index f hf
    obtain ⟨i, after, hi, hstep, htargets, hnext, hhandlers⟩ := hb.step hf
    refine ⟨i, after, hi, hstep, fun l hl => ?_, fun hfalls => (hnext hfalls).mono hle,
      fun x hx hcovers => ?_⟩
    · obtain ⟨target, htarget, hwithin⟩ := htargets l hl
      exact ⟨target, (Code.find_iff hpositions).mpr htarget, hwithin.mono hle⟩
    · obtain ⟨⟨range, y⟩, hzip, rfl⟩ := List.mem_map.mp hx
      obtain ⟨hy, hresolve⟩ :=
        (mem_zip_of_forall₂ ((Code.handlerRanges_ok hpositions).mp hranges)).2 _ hzip
      obtain ⟨hstart, hstop, hentry⟩ := Code.resolve_ok.mp hresolve
      simp only [HandlerRange.covers, Bool.and_eq_true, decide_eq_true_eq] at hcovers
      have hedge : c.Edge index (some y) range.entry :=
        .handler hy ((Code.find_iff hpositions).mp hstart) ((Code.find_iff hpositions).mp hstop)
          ((Code.find_iff hpositions).mp hentry) hcovers
      obtain ⟨hbefore, hafter⟩ := hhandlers y range.entry hedge
      exact ⟨hbefore.mono hle, hafter.mono hle⟩

/-- The frame on entry does not depend on how many locals there are besides the arguments. -/
theorem Frame.entry_suits {size' : Nat} (hle : size' ≤ size) :
    (Frame.entry owner name d isStatic size').Suits id size'
      (Frame.entry owner name d isStatic size) := by
  refine ⟨⟨?_, fun k u hk hu => ⟨u, ?_, .refl u⟩⟩, .nil⟩
  · simp only [Frame.entry, Frame.padded, List.length_append, List.length_replicate]
    omega
  · simp only [Frame.entry, Frame.padded, List.getElem?_append, List.getElem?_replicate] at hu ⊢
    split
    · rename_i hargument
      rw [if_pos hargument] at hu
      exact hu
    · rename_i hargument
      rw [if_neg hargument, if_pos (by omega)] at hu
      rw [if_pos (by omega)]
      exact hu

/-- **Frames known in advance.** If the frame on entry suits the first of them, the analysis of a
body with its labels placed fails only if a class is missing or the stack is too deep, as long as nothing
is above the root of the hierarchy; and if it does not fail, the frames that it finds suit those that
were known. -/
theorem analyzeCode_below (htop : h.Topped) (hb : c.Bounds ⟨owner, d.result⟩ size known)
    (hpositions : c.labelPositions = .ok positions) (hranges : c.handlerRanges = .ok ranges)
    (hsize : size < 0x10000) (hmax : max c.maxLocals (d.parameterWords !isStatic) ≤ size)
    (hentry : (Frame.entry owner name d isStatic size).Within known size 0) :
    FailsOnly (fun e => e.Missing ∨
        ∃ words, 0x10000 ≤ words ∧ e = .unanalyzable (.stackTooDeep words))
        (analyzeCode h owner name d isStatic c) ∧
      ∀ a, analyzeCode h owner name d isStatic c = .ok a → a.maxLocals ≤ size ∧
        ∀ index f, a.frames.getD index none = some f → f.Within known a.maxLocals index := by
  have hnonempty : 0 < c.instructions.size := by
    obtain ⟨g, hg, -⟩ := hentry
    obtain ⟨_, _, hi, -⟩ := hb.step hg
    exact (Array.getElem?_eq_some_iff.mp hi).1
  have hfoldl : ∀ (is : List Instruction) n, n ≤ size → (∀ i ∈ is, i.localExtent ≤ size) →
      is.foldl (fun n i => max n i.localExtent) n ≤ size := by
    intro is
    induction is with
    | nil => exact fun _ hn _ => hn
    | cons i is ih =>
      intro n hn his
      obtain ⟨hi, his⟩ := List.forall_mem_cons.mp his
      exact ih _ (max_le hn hi) his
  generalize hlocals : c.instructions.foldl (fun n i => max n i.localExtent)
    (max c.maxLocals (d.parameterWords !isStatic)) = locals
  have hle : locals ≤ size := by
    rw [← hlocals, ← Array.foldl_toList]
    exact hfoldl _ _ hmax fun i hi => hb.extent i (Array.mem_toList_iff.mp hi)
  have hextent : ∀ i ∈ c.instructions, i.localExtent ≤ locals := by
    intro i hi
    rw [← hlocals, ← Array.foldl_toList]
    exact le_foldl_max_of_mem _ (Array.mem_toList_iff.mpr hi) _
  have hbounds := hb.flow (h := h) hpositions hranges hle hextent
  have hplaced : (Flow.ofCode h owner d c positions ranges).Placed :=
    Flow.ofCode_placed hpositions hranges
  have harguments : (Frame.arguments owner name d isStatic).length ≤ locals := by
    rw [Frame.arguments_length, ← hlocals, ← Array.foldl_toList]
    exact Nat.le_trans (Nat.le_max_right ..) (le_foldl_max ..)
  have hready : (Flow.ofCode h owner d c positions ranges).Ready
      (.start c (.entry owner name d isStatic locals)) := by
    refine ⟨by simp [FlowState.start, Flow.ofCode], fun index hindex => ?_⟩
    obtain rfl := List.mem_singleton.mp hindex
    exact ⟨by simp [FlowState.frameAt, FlowState.start, hnonempty], hnonempty⟩
  have hstart : Flow.StaysBelow known locals (.start c (.entry owner name d isStatic locals)) := by
    intro index f hf
    obtain ⟨rfl, rfl⟩ := FlowState.frameAt_start hf
    exact ⟨Frame.entry_wellFormed harguments, .of_suits (Frame.entry_suits hle) (hentry.mono hle)⟩
  -- that frames stay below the known ones is an invariant of the worklist, however long it runs
  have hsettle := fun fuel => Flow.settle_below hplaced hbounds fuel hready hstart
  constructor
  · have hfails : FailsOnly (fun e => (e.Missing ∨ e = .unanalyzable .unsettled) ∨
        ∃ words, 0x10000 ≤ words ∧ e = .unanalyzable (.stackTooDeep words))
        (analyzeCode h owner name d isStatic c) := by
      rw [analyzeCode, hpositions, hranges, if_neg (by simpa using Nat.ne_of_gt hnonempty)]
      refine FailsOnly.bind (.ok _) fun _ heq => ?_
      cases heq
      refine FailsOnly.bind (.ok _) fun _ heq => ?_
      cases heq
      simp only [hlocals]
      rw [if_neg (by omega)]
      refine FailsOnly.bind ((hsettle _).1.imp fun _ => .inl) fun settled _ => ?_
      split
      · exact .error (.inr ⟨_, ‹_›, rfl⟩)
      · exact .ok _
    intro e he
    rcases hfails e he with (hmissing | hunsettled) | hdeep
    · exact .inl hmissing
    · -- that the worklist runs out is known apart from it
      exact absurd hunsettled (analyzeCode_settled htop e he)
    · exact .inr hdeep
  · intro a ha
    obtain ⟨analyzed⟩ := analyzeCode_analyzed ha
    obtain rfl := Except.ok.inj (hpositions.symm.trans analyzed.positions_eq)
    obtain rfl := Except.ok.inj (hranges.symm.trans analyzed.ranges_eq)
    have hsame : a.maxLocals = locals := analyzed.locals_eq.trans hlocals
    rw [hsame]
    refine ⟨hle, fun index f hf => ?_⟩
    have hsettled := analyzed.settle_eq
    rw [hsame] at hsettled
    rw [analyzed.frames_eq] at hf
    exact ((hsettle _).2 _ hsettled index f hf).within

/-! ## Frames that were found -/

/-- Frames suit if their variables and operands do. -/
theorem Frame.Pointwise.suits {f g : Frame} (hfg : f.Pointwise (SlotType.Suits id) g)
    (hg : g.WellFormed size) : f.Suits id size g := by
  have hlength := hfg.locals.length_eq.trans hg.length
  refine ⟨⟨hlength.ge, fun k u hk hu => ?_⟩, ?_⟩
  · obtain ⟨hk', rfl⟩ := List.getElem?_eq_some_iff.mp hu
    exact ⟨_, List.getElem?_eq_getElem (by omega), hfg.locals.get (by omega) hk'⟩
  · have hstack := hg.stack
    refine List.forall₂_iff_zip.mpr ⟨hfg.stack.length_eq, fun {t u} htu => ?_⟩
    exact ⟨hstack u (List.of_mem_zip htu).2, (List.forall₂_iff_zip.mp hfg.stack).2 htu⟩

variable {a : Analysis}

/-- **What an analysis finds is a bound**, and the frame on entry is below it. -/
theorem Analyzed.bounds (analyzed : Analyzed h owner name d isStatic c a) :
    c.Bounds ⟨owner, d.result⟩ a.maxLocals (fun index => a.frames.getD index none) ∧
      (Frame.entry owner name d isStatic a.maxLocals).Within
        (fun index => a.frames.getD index none) a.maxLocals 0 := by
  have hentry : (Frame.entry owner name d isStatic a.maxLocals).WellFormed a.maxLocals :=
    Frame.entry_wellFormed analyzed.arguments_le
  have hmerge : ∀ {x y m : Frame}, x.WellFormed a.maxLocals → y.WellFormed a.maxLocals →
      Frame.merge h x y = .ok m → m.WellFormed a.maxLocals ∧
        x.Pointwise (SlotType.Suits id) m ∧ y.Pointwise (SlotType.Suits id) m := by
    intro x y m hx hy hm
    have hP : ∀ f : Frame, f.All fun _ => True := fun f => ⟨fun _ _ => trivial, fun _ _ => trivial⟩
    exact ⟨Frame.merge_wellFormed hx hy hm,
      Frame.merge_pointwise SlotType.Suits.top (fun _ _ hs => SlotType.merge_suits hs)
        (hx.length.trans hy.length.symm) (hP x) (hP y) hm⟩
  have ha : analyzed.flow.Ascending (fun _ f => f.WellFormed a.maxLocals)
      (Frame.Pointwise (SlotType.Suits id)) := {
    refl := fun f => .refl SlotType.Suits.refl f
    trans := fun f g k => .trans fun s t u hst htu => hst.trans htu
    sends := fun {index before i after sent} hi hgood hafter hsent e he => by
      rw [analyzed.flow_instructions] at hi
      exact ⟨(Flow.sent_upheld (Frame.upheld_wellFormed _ _) hgood hafter).2 sent hsent e he,
        (analyzed.mem_sent hi hsent he).1⟩
    merge := hmerge }
  obtain ⟨⟨g, hg, hfirst⟩, hall⟩ := analyzed.fixpoint ha hentry
  have hwithin : ∀ {f g : Frame} {index : Nat}, a.frames.getD index none = some g →
      f.Pointwise (SlotType.Suits id) g →
      f.Within (fun index => a.frames.getD index none) a.maxLocals index :=
    fun hg hfg => ⟨_, hg, hfg.suits (hall hg).1⟩
  refine ⟨⟨fun i hi => ?_, fun {index f} hf => ?_⟩, hwithin hg hfirst⟩
  · obtain ⟨index, hindex⟩ := Array.mem_iff_getElem?.mp hi
    exact analyzed.extent_le hindex
  · obtain ⟨hwellFormed, i, after, hi, hstep, htargets, hedges⟩ := hall hf
    have hafter : after.WellFormed a.maxLocals := Frame.step_wellFormed hwellFormed hstep
    have hnone : ∀ target, c.Edge index none target →
        after.Within (fun index => a.frames.getD index none) a.maxLocals target := by
      intro target hedge
      obtain ⟨sent, g, halong, hg, hle⟩ := hedges none target hedge
      cases halong
      exact hwithin hg hle
    refine ⟨i, after, hi, hstep, fun l hl => ?_, fun hfalls => hnone _ (.next hi hfalls),
      fun x target hedge => ?_⟩
    · obtain ⟨target, htarget⟩ := htargets l hl
      exact ⟨target, analyzed.find_iff.mp htarget,
        hnone target (.jump hi hl (analyzed.find_iff.mp htarget))⟩
    · obtain ⟨sent, g, halong, hg, hle⟩ := hedges (some x) target hedge
      have hmerged := hmerge (hwellFormed.handler x.caught)
        (hafter.handler x.caught) halong
      have hsent : sent.Suits id a.maxLocals g := hle.suits (hall hg).1
      exact ⟨⟨g, hg, (hmerged.2.1.suits hmerged.1).trans hsent⟩,
        ⟨g, hg, (hmerged.2.2.suits hmerged.1).trans hsent⟩⟩

/-- The stack map of a body that was analyzed can always be told. -/
theorem stackMap_ok (hok : analyzeCode h owner name d isStatic c = .ok a) :
    ∃ table, stackMap c a = .ok table := by
  obtain ⟨analyzed⟩ := analyzeCode_analyzed hok
  obtain ⟨hbounds, ⟨first, hfirst, -⟩⟩ := analyzed.bounds
  have hlabels : ∀ l ∈ joinLabels c a, ∃ position, analyzed.positions.find l = .ok position := by
    intro l hl
    rcases List.mem_append.mp hl with hl | hl
    · obtain ⟨⟨i, index⟩, hi, hl⟩ := List.mem_flatMap.mp hl
      obtain ⟨hi, hreachable⟩ := List.mem_filter.mp hi
      obtain ⟨f, hf⟩ := Option.isSome_iff_exists.mp hreachable
      obtain ⟨i', _, hi', -, htargets, -⟩ := hbounds.step hf
      have hsame : c.instructions[index]? = some i := by
        simpa using List.mem_zipIdx_iff_getElem?.mp hi
      obtain rfl := Option.some.inj (hsame.symm.trans hi')
      obtain ⟨target, htarget, -⟩ := htargets l hl
      exact ⟨target, analyzed.find_iff.mpr htarget⟩
    · obtain ⟨x, hx, rfl⟩ := List.mem_map.mp hl
      obtain ⟨range, -, hresolve⟩ := (mem_zip_of_forall₂ analyzed.ranges_resolve).1 x hx
      exact ⟨_, (Code.resolve_ok.mp hresolve).2.2⟩
  have hjoins : FailsOnly (fun _ => False) (joinPoints c a) := by
    rw [joinPoints, analyzed.positions_eq]
    refine FailsOnly.bind (.ok _) fun _ heq => ?_
    cases heq
    refine FailsOnly.foldlM (Q := fun _ => True) trivial fun l hl _ _ => ⟨?_, fun _ _ => trivial⟩
    obtain ⟨position, hposition⟩ := hlabels l hl
    rw [hposition]
    exact .ok _
  -- generalized over the frame before, which is another one for each entry
  have hentries : ∀ points : List (Nat × Label), (∀ p ∈ points, a.isReachable p.1 = true) →
      ∀ previous, FailsOnly (fun _ => False) (stackMapEntries a previous points) := by
    intro points
    induction points with
    | nil => exact fun _ _ => .ok _
    | cons p points ih =>
      intro hpoints previous
      obtain ⟨hp, hpoints⟩ := List.forall_mem_cons.mp hpoints
      obtain ⟨f, hf⟩ := Option.isSome_iff_exists.mp hp
      rw [stackMapEntries, Analysis.frame_ok.mpr hf]
      exact (ih hpoints _).bind fun _ _ => .ok _
  have hfails : FailsOnly (fun _ => False) (stackMap c a) := by
    refine hjoins.bind fun points hpoints => ?_
    rw [Analysis.frame_ok.mpr hfirst]
    refine hentries points (fun p hp => ?_) _
    exact (analyzed.reachable.1 p.1).mpr (((analyzed.joinPoints_spec hpoints).2 _ _).mp hp).reachable
  cases htable : stackMap c a with
  | ok table => exact ⟨table, rfl⟩
  | error e => exact (hfails e htable).elim

/-- Limits and stack map, with nothing but the analysis that can fail. -/
theorem withMetadata_eq (h : Hierarchy) (owner : ClassName) (m : Method) (c : Code) :
    withMetadata h owner { m with code := some c } =
      (analyzeSearch h owner m.name m.descriptor m.isStatic c).map fun _ => m.filled h owner c := by
  rw [← analyzeCode_search]
  cases hanalyze : analyzeCode h owner m.name m.descriptor m.isStatic c with
  | error e =>
    have hfails : analyze h owner { m with code := some c } = .error e := hanalyze
    simp only [withMetadata, hfails]
    rfl
  | ok a =>
    have hanalyzed : analyze h owner { m with code := some c } = .ok a := hanalyze
    obtain ⟨table, htable⟩ := stackMap_ok hanalyze
    have hok : withMetadata h owner { m with code := some c } = .ok { m with
        code := some { c with
          maxStack := a.maxStack, maxLocals := a.maxLocals, stackMap := some table } } := by
      simp only [withMetadata, hanalyzed, htable, bind, Except.bind]
      rfl
    rw [hok, withMetadata_filled hok]
    rfl

end

end Resumption
