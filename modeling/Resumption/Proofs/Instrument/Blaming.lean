import Resumption.Proofs.Analysis.Failing
import Resumption.Proofs.Instrument.Keys

/-!
# Who is to blame for a refusal

A refusal is *internal* if it blames the generator rather than the method. Inlining and analyzing a
method whose labels are placed once never gives such a refusal (`planMethod_blameless`), so only the
code that is generated for it can (`suspendableClass_blames_generation`). That happens: the code
generated for a static call of `suspend` drops a receiver that is not there
(`suspendableClass_internal_static`).
-/

namespace Resumption

/-- The code that it was given is to blame, if this fails. -/
abbrev Blameless {α : Type} (x : Except CodeError α) : Prop := FailsOnly (·.isInternal = false) x

/-! ## Labels -/

theorem CodeError.ofLabel_unplaced {e : LabelError} (h : ∃ l, e = .unplaced l) :
    (ofLabel e).isInternal = false := by
  obtain ⟨l, rfl⟩ := h
  rfl

theorem LabelPositions.find_blameless (positions : LabelPositions) (l : Label) :
    Blameless (liftError CodeError.ofLabel (positions.find l)) :=
  (positions.find_failsOnly l).lift fun _ => CodeError.ofLabel_unplaced

theorem Code.handlerRanges_blameless {c : Code} {positions : LabelPositions}
    (hpositions : c.labelPositions = .ok positions) :
    Blameless (liftError CodeError.ofLabel c.handlerRanges) := by
  refine FailsOnly.lift (P := fun e => ∃ l, e = .unplaced l) ?_ fun _ => CodeError.ofLabel_unplaced
  rw [handlerRanges, hpositions]
  refine FailsOnly.mapM fun x _ => ?_
  refine (positions.find_failsOnly _).bind fun _ _ => ?_
  refine (positions.find_failsOnly _).bind fun _ _ => ?_
  exact (positions.find_failsOnly _).bind fun _ _ => .ok _

/-! ## Subroutines -/

namespace Subroutine

variable (s : Source)

theorem Source.successors_blameless (index : Nat) (i : Instruction) :
    Blameless (s.successors index i) := by
  have hplain : Blameless (do
      let targets ← i.targets.mapM s.position
      return (if i.fallsThrough then [index + 1] else []) ++ targets.reverse) :=
    FailsOnly.bind (.mapM fun l _ => s.positions.find_blameless l) fun _ _ => .ok _
  cases i with
  | ret slot => exact .ok _
  | jsr l => exact .ok _
  | _ => exact hplain

theorem Source.reach_blameless (fuel : Nat) (toVisit visited : List Nat) :
    Blameless (s.reach fuel toVisit visited) := by
  induction fuel generalizing toVisit visited with
  | zero => exact .ok _
  | succ fuel ih =>
    rw [reach]
    split
    · exact .ok _
    · split
      · exact .error rfl
      · exact (s.successors_blameless _ _).bind fun _ _ => ih _ _

theorem Source.returnSlot_blameless (target : Label) (start : Nat) :
    Blameless (s.returnSlot target start) := by
  rw [returnSlot]
  split
  · exact .ok _
  · exact .error rfl

/-- The copy of a subroutine, and of those that it calls. -/
theorem Source.inlineCall_blameless (fuel call : Nat) (target : Label) (active : List Label)
    (o : Output) : Blameless (s.inlineCall fuel call target active o) := by
  induction fuel generalizing call target active o with
  | zero => exact .error rfl
  | succ fuel ih =>
    rw [inlineCall]
    refine .guarded rfl fun _ => ?_
    refine (s.positions.find_blameless target).bind fun start _ => ?_
    refine (s.returnSlot_blameless target start).bind fun slot _ => ?_
    refine ((s.reach_blameless _ _ _).bind fun _ _ => .ok _).bind fun body _ => ?_
    refine FailsOnly.bind (.foldlM (Q := fun _ => True) trivial fun index _ o _ =>
      ⟨?_, fun _ _ => trivial⟩) fun _ _ => .ok _
    split
    · split
      · exact .ok _
      · exact .error rfl
    · exact ih _ _ _ _
    · exact .ok _
    · exact .ok _

/-- **Inlining** fails for the code's own reasons. -/
theorem inline_blameless {c : Code} {positions : LabelPositions}
    (hpositions : c.labelPositions = .ok positions) : Blameless (inline c) := by
  rw [inline]
  split
  · exact .ok _
  · rw [hpositions]
    refine FailsOnly.bind (.ok _) fun positions _ => ?_
    refine FailsOnly.bind (.foldlM (Q := fun _ => True) trivial fun x _ o _ =>
      ⟨?_, fun _ _ => trivial⟩) fun _ _ => ?_
    · obtain ⟨i, index⟩ := x
      cases i with
      | jsr l => exact Source.inlineCall_blameless _ _ _ _ _ _
      | _ => exact .ok _
    · exact (Code.handlerRanges_blameless hpositions).bind fun _ _ => .ok _

/-- What inlining gives has its labels placed once. -/
theorem inline_labelPositions {c c' : Code} {positions : LabelPositions} (hbounded : Bounded c)
    (hpositions : c.labelPositions = .ok positions) (h : inline c = .ok c') :
    ∃ positions', c'.labelPositions = .ok positions' := by
  rcases inline_inv h with ⟨-, rfl⟩ | ⟨_, _, _, _, _, hinlined⟩
  · exact ⟨positions, hpositions⟩
  · obtain ⟨positions', hresult⟩ := hinlined.result hbounded
    exact ⟨positions', hresult.positions'⟩

end Subroutine

/-! ## The analysis -/

/-- Visiting an instruction never finds the analysis itself at fault. -/
theorem CodeError.Visiting.blameless {e : CodeError} (he : e.Visiting) : e.isInternal = false := by
  cases he with
  | merge e => cases e <;> rfl
  | _ => rfl

namespace Flow

variable {flow : Flow}

/-- What is to be visited has a frame and an instruction. -/
structure Ready (flow : Flow) (s : FlowState) : Prop where
  /-- there is a place for every instruction -/
  size : s.frames.size = flow.instructions.size
  /-- what is to be visited has a frame -/
  worklist : ∀ index ∈ s.worklist, (s.frameAt index).isSome = true ∧ index < flow.instructions.size

theorem Ready.enqueue {s : FlowState} (hs : flow.Ready s) {target : Nat} {f : Frame}
    (hsize : target < flow.instructions.size) : flow.Ready (s.enqueue target f) := by
  have hself : (s.enqueue target f).frameAt target = some f := by
    simp only [FlowState.frameAt, FlowState.enqueue, getD_set!, hs.size, hsize, and_self, if_true]
  have hothers : ∀ index, (s.frameAt index).isSome = true →
      ((s.enqueue target f).frameAt index).isSome = true := by
    intro index hindex
    by_cases heq : target = index
    · subst heq
      rw [hself]
      rfl
    · simpa only [FlowState.frameAt, FlowState.enqueue, getD_set!, heq, false_and, if_false]
        using hindex
  refine ⟨by simp [FlowState.enqueue, hs.size], fun index hin => ?_⟩
  have hwaits : index = target ∨ index ∈ s.worklist := by
    simp only [FlowState.enqueue] at hin
    split at hin
    · exact .inr hin
    · exact List.mem_cons.mp hin
  rcases hwaits with rfl | hin
  · exact ⟨by rw [hself]; rfl, hsize⟩
  · exact ⟨hothers index (hs.worklist index hin).1, (hs.worklist index hin).2⟩

theorem Ready.receive {s s' : FlowState} (hs : flow.Ready s) {e : Nat × Frame}
    (hsize : e.1 < flow.instructions.size) (h : flow.receive s e = .ok s') : flow.Ready s' := by
  rcases receive_cases h with ⟨rfl, -⟩ | ⟨-, rfl⟩ | ⟨_, _, -, -, -, rfl⟩
  · exact hs
  · exact hs.enqueue hsize
  · exact hs.enqueue hsize

/-- **One visit.** It fails for the code's own reasons, and leaves what is to be visited ready. -/
theorem visit_blameless (hplaced : flow.Placed) {s : FlowState} {index : Nat} {rest : List Nat}
    (hs : flow.Ready s) (hnext : s.worklist = index :: rest) :
    Blameless (flow.visit { s with worklist := rest } index) ∧
      ∀ s', flow.visit { s with worklist := rest } index = .ok s' → flow.Ready s' := by
  obtain ⟨hframe, hsize⟩ := hs.worklist index (hnext ▸ List.mem_cons_self ..)
  obtain ⟨before, hbefore⟩ := Option.isSome_iff_exists.mp hframe
  have hbefore : s.frames.getD index none = some before := hbefore
  have hi : flow.instructions[index]? = some flow.instructions[index] :=
    Array.getElem?_eq_getElem hsize
  have hrest : ∀ after, flow.Ready (flow.visited { s with worklist := rest } index before after) :=
    fun after => ⟨hs.size, fun k hk => hs.worklist k (hnext ▸ List.mem_cons_of_mem _ hk)⟩
  constructor
  · simp only [visit, hbefore, hi]
    refine ((afterFrame_fails index before _).imp fun _ he => he.blameless).bind fun after _ => ?_
    refine ((edges_fails index before after _).imp fun _ he => he.blameless).bind fun sent hsent => ?_
    refine FailsOnly.foldlM (Q := flow.Ready) (hrest after) fun e he s hs => ?_
    exact ⟨(receive_fails s e).imp fun _ he => he.blameless,
      fun s' => hs.receive (edges_placed hplaced hsent e he)⟩
  · intro s' hvisit
    obtain ⟨before', i, after, sent, hbefore', -, -, hsent, hreceive⟩ := visit_cases hvisit
    obtain rfl : before = before' := Option.some.inj (hbefore.symm.trans hbefore')
    exact foldlM_receive (fun s s' e he hs => hs.receive (edges_placed hplaced hsent e he)) hreceive
      (hrest after)

theorem settle_blameless (hplaced : flow.Placed) (fuel : Nat) {s : FlowState} (hs : flow.Ready s) :
    Blameless (flow.settle fuel s) := by
  induction fuel generalizing s with
  | zero => exact .error rfl
  | succ fuel ih =>
    rw [settle]
    split
    · exact .ok _
    · rename_i index rest hnext
      obtain ⟨hblameless, hready⟩ := visit_blameless hplaced hs hnext
      exact hblameless.bind fun s' hs' => ih (hready s' hs')

end Flow

/-- **The analysis** of a body with its labels placed once fails for the body's own reasons. -/
theorem analyzeCode_blameless {h : Hierarchy} {owner : ClassName} {name : MemberName}
    {d : MethodDescriptor} {isStatic : Bool} {c : Code} {positions : LabelPositions}
    (hpositions : c.labelPositions = .ok positions) :
    Blameless (analyzeCode h owner name d isStatic c) := by
  rw [analyzeCode, hpositions]
  refine .guarded rfl fun hnonempty => ?_
  refine FailsOnly.bind (.ok _) fun found hfound => ?_
  obtain rfl : positions = found := Except.ok.inj hfound
  refine (Code.handlerRanges_blameless hpositions).bind fun ranges hranges => ?_
  refine .guarded rfl fun _ => ?_
  have hplaced : (Flow.ofCode h owner d c positions ranges).Placed :=
    Flow.ofCode_placed hpositions (liftError_ok hranges)
  refine FailsOnly.bind (Flow.settle_blameless hplaced _ ?_) fun settled _ => ?_
  · refine ⟨by simp [FlowState.start, Flow.ofCode], fun index hindex => ?_⟩
    obtain rfl := List.mem_singleton.mp hindex
    have hpos : 0 < c.instructions.size := Nat.pos_of_ne_zero (by simpa using hnonempty)
    exact ⟨by simp [FlowState.frameAt, FlowState.start, hpos], hpos⟩
  · exact .guarded rfl fun _ => .ok _

/-- **The plan of a method.** -/
theorem planMethod_blameless {policy : SuspendPolicy} {h : Hierarchy} {owner : ClassName} {m : Method}
    {c : Code} {slot : Nat} {positions : LabelPositions} (hbounded : Subroutine.Bounded c)
    (hpositions : c.labelPositions = .ok positions) :
    Blameless (planMethod policy h owner m c slot) := by
  refine (Subroutine.inline_blameless hpositions).bind fun c' hc' => ?_
  obtain ⟨positions', hpositions'⟩ := Subroutine.inline_labelPositions hbounded hpositions hc'
  exact (analyzeCode_blameless hpositions').bind fun _ _ => .ok _

/-! ## Refusals -/

theorem RefusalCause.ofAnalysis_blame {e : CodeError} (he : e.isInternal = false) :
    (ofAnalysis e).blame ≠ .internal := by
  unfold ofAnalysis
  cases e with
  | noFrame | duplicateLabel => cases he
  | _ => exact nofun

/-- Before its body is looked at closely, a method is refused for its own faults. -/
theorem refusal?_blame {policy : SuspendPolicy} {m : Method} {c : Code} {cause : RefusalCause}
    (h : refusal? policy m c = some cause) : cause.blame = .input := by
  rw [refusal?] at h
  split at h
  · cases h
    rfl
  · split at h
    · cases h
      rfl
    · split at h <;> cases h
      rfl

/-- A refusal that blames the generator comes of a plan for which no code could be generated. -/
theorem makeSuspendable_internal {settings : Settings} {h : Hierarchy} {owner : ClassName} {m : Method}
    {r : Refusal} {c : Code} {positions : LabelPositions} (hcode : m.code = some c)
    (hbounded : Subroutine.Bounded c) (hpositions : c.labelPositions = .ok positions)
    (hrefused : makeSuspendable settings h owner m = .error r) (hblame : r.cause.blame = .internal) :
    ∃ slot plan e, m.continuationSlot? = some slot ∧
      planMethod settings.policy h owner m c slot = .ok plan ∧ plan.points ≠ [] ∧
      (∀ p ∈ plan.points, p.frame.hasUninitialized = false) ∧
      plan.generate settings h = .error e ∧ r.cause = .internal e := by
  simp only [makeSuspendable, hcode] at hrefused
  split at hrefused
  · cases hrefused
  split at hrefused
  · rename_i hcause
    cases hrefused
    rw [refusal?_blame hcause] at hblame
    cases hblame
  · cases hrefused
  rename_i slot _ hslot
  split at hrefused
  · cases hrefused
  have hplanned : Blameless (planMethod settings.policy h owner m c slot) :=
    planMethod_blameless hbounded hpositions
  cases hplan : planMethod settings.policy h owner m c slot with
  | error e =>
    rw [hplan] at hrefused
    cases hrefused
    exact absurd hblame (RefusalCause.ofAnalysis_blame (hplanned e hplan))
  | ok plan =>
    rw [hplan] at hrefused
    simp only [liftError, bind, Except.bind] at hrefused
    split at hrefused
    · cases hrefused
    rename_i hsome
    split at hrefused
    · cases hrefused
      cases hblame
    rename_i hinitialized
    cases hgenerate : plan.generate settings h with
    | ok made =>
      rw [hgenerate] at hrefused
      cases hrefused
    | error e =>
      rw [hgenerate] at hrefused
      cases hrefused
      refine ⟨slot, plan, e, hslot, hplan, by simpa using hsome, fun p hp => ?_, hgenerate, ?_⟩
      · simpa using List.find?_eq_none.mp hinitialized p hp
      · cases e with
        | missingClass => cases hblame
        | _ => rfl

/-- A failed traversal failed at some element. -/
theorem mapM_error {ε α β : Type} {f : α → Except ε β} {xs : List α} {e : ε}
    (h : xs.mapM f = .error e) : ∃ x ∈ xs, f x = .error e := by
  have hfails : FailsOnly (fun e => ∃ x ∈ xs, f x = .error e) (xs.mapM f) :=
    .mapM fun x hx e he => ⟨x, hx, he⟩
  exact hfails e h

/-- **Blame.** If a class whose methods place each label once is refused, and the refusal blames the
generator, then some method of the class could be planned, with points at which all objects are
initialized, and it was the code generated for it that did not pass. Nothing before that, in reading
labels, inlining subroutines or analyzing the method as written, ever blames the generator. -/
theorem suspendableClass_blames_generation {settings : Settings} {h : Hierarchy} {c : Class}
    {r : Refusal}
    (hlabels : ∀ m ∈ c.methods, ∀ body, m.code = some body →
      Subroutine.Bounded body ∧ ∃ positions, body.labelPositions = .ok positions)
    (hrefused : suspendableClass settings h c = .error r) (hblame : r.cause.blame = .internal) :
    ∃ m ∈ c.methods, ∃ body slot plan e, m.code = some body ∧ m.continuationSlot? = some slot ∧
      planMethod settings.policy (c.within h) c.name m body slot = .ok plan ∧ plan.points ≠ [] ∧
      (∀ p ∈ plan.points, p.frame.hasUninitialized = false) ∧
      plan.generate settings (c.within h) = .error e ∧ r.cause = .internal e := by
  rw [suspendableClass] at hrefused
  split at hrefused
  · cases hrefused
  cases hmade : c.methods.mapM (makeSuspendable settings (c.within h) c.name) with
  | ok made =>
    rw [hmade] at hrefused
    simp only [bind, Except.bind] at hrefused
    split at hrefused <;> cases hrefused
  | error e =>
    rw [hmade] at hrefused
    cases hrefused
    obtain ⟨m, hm, hfailed⟩ := mapM_error hmade
    cases hcode : m.code with
    | none =>
      simp only [makeSuspendable, hcode] at hfailed
      cases hfailed
    | some body =>
      obtain ⟨hbounded, positions, hpositions⟩ := hlabels m hm body hcode
      obtain ⟨slot, plan, e, hrest⟩ :=
        makeSuspendable_internal hcode hbounded hpositions hfailed hblame
      exact ⟨m, hm, body, slot, plan, e, hcode, hrest⟩

/-! ## A static call of `suspend` -/

namespace Static

/-- Calls `suspend` as if it were static. -/
def code : Code where
  maxLocals := 1
  maxStack := 0
  instructions := #[.invoke .static Interface.Continuation.suspend, .returnVoid]
  handlers := []
  stackMap := none
  nextLabel := ⟨0⟩

/-- Calls `suspend` as if it were static: as written, no receiver is taken off the stack. -/
def run : Method where
  name := .run
  descriptor := ⟨[.object .continuation], none⟩
  flags := staticFlag
  annotations := []
  code := some code

/-- A class with that method alone. -/
def caller : Class where
  name := { text := "Static" }
  superclass := some .object
  interfaces := []
  flags := 0
  fields := []
  methods := [run]
  attributes := []

/-- The instruction at fault, with its place in the generated code. -/
def fault : CodeError := .verification (.stack .pop) 25 .emptyStack

theorem placed : ∀ m ∈ caller.methods, ∀ body, m.code = some body →
    Subroutine.Bounded body ∧ ∃ positions, body.labelPositions = .ok positions := by
  intro m hm body hbody
  obtain rfl := List.mem_singleton.mp hm
  cases hbody
  exact ⟨by decide, [], rfl⟩

theorem accepted : ∃ a, analyzeCode Library.hierarchy caller.name run.name run.descriptor true code =
    .ok a := by
  have hok : (analyzeCode Library.hierarchy caller.name run.name run.descriptor true
      code).toOption.isSome = true := by
    decide +kernel
  cases h : analyzeCode Library.hierarchy caller.name run.name run.descriptor true code with
  | ok a => exact ⟨a, rfl⟩
  | error e =>
    rw [h] at hok
    cases hok

theorem refused : ∃ r, suspendableClass .standard Library.hierarchy caller = .error r ∧
    r.cause = .internal fault := by
  have hcause : (match suspendableClass .standard Library.hierarchy caller with
      | .ok _ => none
      | .error r => some r.cause) = some (.internal fault) := by
    decide +kernel
  cases h : suspendableClass .standard Library.hierarchy caller with
  | ok c =>
    rw [h] at hcause
    cases hcause
  | error r =>
    rw [h] at hcause
    exact ⟨r, rfl, Option.some.inj hcause⟩

end Static

/-- The method could be planned, so it is the generated code that did not pass. -/
theorem suspendableClass_blames_generation_static : ∃ r plan,
    suspendableClass .standard Library.hierarchy Static.caller = .error r ∧
      r.cause.blame = .internal ∧
      planMethod Settings.standard.policy (Static.caller.within Library.hierarchy)
        Static.caller.name Static.run Static.code 0 = .ok plan ∧
      plan.generate .standard (Static.caller.within Library.hierarchy) = .error Static.fault := by
  obtain ⟨r, hrefused, hcause⟩ := Static.refused
  have hblame : r.cause.blame = .internal := by
    rw [hcause]
    rfl
  obtain ⟨m, hm, body, slot, plan, e, hbody, hslot, hplan, -, -, hgenerate, hinternal⟩ :=
    suspendableClass_blames_generation Static.placed hrefused hblame
  obtain rfl := List.mem_singleton.mp hm
  cases hbody
  cases hslot
  rw [hcause] at hinternal
  cases hinternal
  exact ⟨r, plan, hrefused, hblame, hplan, hgenerate⟩

/-- **A static call of `suspend`.** The method passes the analysis as written, and its labels are
placed once; the code generated for it does not pass, and the refusal blames the generator. -/
theorem suspendableClass_internal_static :
    (∀ m ∈ Static.caller.methods, ∀ body, m.code = some body →
      Subroutine.Bounded body ∧ ∃ positions, body.labelPositions = .ok positions) ∧
    (∃ a, analyzeCode Library.hierarchy Static.caller.name Static.run.name Static.run.descriptor true
      Static.code = .ok a) ∧
    ∃ r, suspendableClass .standard Library.hierarchy Static.caller = .error r ∧
      r.cause.blame = .internal := by
  obtain ⟨r, hrefused, hcause⟩ := Static.refused
  refine ⟨Static.placed, Static.accepted, r, hrefused, ?_⟩
  rw [hcause]
  rfl

end Resumption
