import Resumption.Proofs.Analysis.Fixpoint
import Resumption.Proofs.Machine.Agreement
import Resumption.Proofs.Machine.Bodies

/-!
# Analyzed code runs without faults

What the analysis says about a body is true of every run of it. An activation that starts with
arguments as the method declares fits the frame on entry (`Activation.start_fits`); a step leads from
an activation that fits the frame at its instruction to one that does so at the next
(`Analyzed.advance_fits`), since what goes along an edge is below the frame there; so every activation
of a run fits, as long as what it asks of others is delivered as declared (`analyzeCode_agrees`).
-/

namespace Resumption

/-! ## The start of a run -/

/-- Arguments of the kinds that a method declares, the receiver first. -/
def MethodDescriptor.Admits (d : MethodDescriptor) (owner : ClassName) (name : MemberName)
    (isStatic : Bool) (arguments : List Value) : Prop :=
  List.Forall₂ SlotType.Admits
    ((if isStatic then [] else [Frame.receiver owner name]) ++ d.parameters.map SlotType.ofField)
    arguments

/-- The activation with which a call of a method starts. -/
def Activation.start (method : String) (arguments : List Value) : Activation where
  method
  locals := argumentLocals arguments
  stack := []
  index := 0

section

variable {h : Hierarchy} {owner : ClassName} {name : MemberName} {d : MethodDescriptor}
  {isStatic : Bool} {c : Code} {a : Analysis} {arguments : List Value}

/-- A wide argument takes two slots, as the frame says. -/
theorem argumentLocals_admits {types : List SlotType} (hne : ∀ t ∈ types, t ≠ .top)
    (hargs : List.Forall₂ SlotType.Admits types arguments) :
    List.Forall₂ SlotType.Admits (types.flatMap Frame.slotsOf) (argumentLocals arguments).toList := by
  simp only [argumentLocals]
  induction hargs with
  | nil => exact .nil
  | @cons t v types arguments hv _ ih =>
    obtain ⟨ht, hne⟩ := List.forall_mem_cons.mp hne
    simp only [List.flatMap_cons, Frame.slotsOf, hv.width_eq ht]
    refine List.rel_append ?_ (ih hne)
    split
    · exact .cons hv (.cons trivial .nil)
    · exact .cons hv .nil

theorem Frame.arguments_eq (owner : ClassName) (name : MemberName) (d : MethodDescriptor)
    (isStatic : Bool) : Frame.arguments owner name d isStatic =
      ((if isStatic then [] else [receiver owner name]) ++
        d.parameters.map SlotType.ofField).flatMap slotsOf := by
  have hreceiver : slotsOf (receiver owner name) = [receiver owner name] := by
    simp only [receiver]
    split <;> rfl
  rw [List.flatMap_append, List.flatMap_map, Frame.arguments]
  cases isStatic with
  | true => rfl
  | false =>
    simp only [Bool.false_eq_true, if_false, List.flatMap_cons, hreceiver]
    rfl

theorem Frame.receiver_ne_top (owner : ClassName) (name : MemberName) :
    receiver owner name ≠ .top := by
  simp only [receiver]
  split <;> simp [SlotType.ofClass]

/-- **The start.** -/
theorem Activation.start_fits (method : String) {size : Nat}
    (hsize : (Frame.arguments owner name d isStatic).length ≤ size)
    (hargs : d.Admits owner name isStatic arguments) :
    (start method arguments).Fits (.entry owner name d isStatic size) := by
  have hne : ∀ t ∈ (if isStatic then [] else [Frame.receiver owner name]) ++
      d.parameters.map SlotType.ofField, t ≠ .top := by
    intro t ht
    rcases List.mem_append.mp ht with ht | ht
    · cases isStatic with
      | true => cases ht
      | false =>
        obtain rfl := List.mem_singleton.mp ht
        exact Frame.receiver_ne_top owner name
    · obtain ⟨u, -, rfl⟩ := List.mem_map.mp ht
      exact Frame.ofField_ne_top u
  have hslots := argumentLocals_admits hne hargs
  rw [← Frame.arguments_eq] at hslots
  have hlength : (Frame.arguments owner name d isStatic).length = (argumentLocals arguments).size :=
    hslots.length_eq.trans Array.length_toList
  refine ⟨fun slot t ht => ?_, .nil, ?_⟩
  · simp only [Frame.entry, Frame.padded] at ht
    by_cases hslot : slot < (Frame.arguments owner name d isStatic).length
    · rw [List.getElem?_append_left hslot] at ht
      have hlt : slot < (argumentLocals arguments).size := hlength ▸ hslot
      have hvalue := (List.forall₂_iff_get.mp hslots).2 slot hslot hlt
      simp only [List.get_eq_getElem, Array.getElem_toList] at hvalue
      rw [(List.getElem?_eq_some_iff.mp ht).2] at hvalue
      simpa [valueAt, start, hlt] using hvalue
    · rw [List.getElem?_append_right (Nat.le_of_not_lt hslot)] at ht
      obtain rfl := List.eq_of_mem_replicate (List.mem_of_getElem? ht)
      exact trivial
  · simp only [start, Frame.entry, Frame.padded, List.length_append, List.length_replicate]
    omega

/-! ## Steps -/

/-- The order of what frames admit is one along which the analysis climbs. -/
theorem Analyzed.ascending_narrows (analyzed : Analyzed h owner name d isStatic c a) :
    analyzed.flow.Ascending (fun _ f => f.WellFormed a.maxLocals) Frame.Narrows where
  refl := Frame.Pointwise.refl fun _ _ hv => hv
  trans _ _ _ := Frame.Pointwise.trans (R := SlotType.Narrows)
    fun _ _ _ hfg hgk v hv => hgk v (hfg v hv)
  sends {index before i after sent} hi hbefore hafter hsent e he := by
    have hstep := Flow.afterFrame_step hafter
    rw [analyzed.flow_instructions] at hi
    obtain ⟨hsize, via, -, halong⟩ := analyzed.mem_sent hi hsent he
    have hwell : after.WellFormed a.maxLocals := Frame.step_wellFormed hbefore hstep
    refine ⟨?_, hsize⟩
    cases via with
    | none =>
      cases halong
      exact hwell
    | some x => exact Frame.merge_wellFormed (hbefore.handler x.caught) (hwell.handler x.caught) halong
  merge ha hb hm := ⟨Frame.merge_wellFormed ha hb hm, Frame.merge_narrows ha hb hm⟩

/-- The activation fits the frame at its instruction. -/
def Analysis.Describes (a : Analysis) (b : Activation) : Prop :=
  ∃ f, a.frames.getD b.index none = some f ∧ b.Fits f

variable {body : Body} {callees : Callees} {b b' : Activation} {i : Instruction} {m m' : Machine}

/-- **One step** leads from an activation that fits to one that fits, and a fault is not its own. -/
theorem Analyzed.advance_fits (analyzed : Analyzed h owner name d isStatic c a)
    (hbody : Body.ofCode c = .ok body) (hb : a.Describes b)
    (hi : body.instructions[b.index]? = some i) (hd : callees.Delivers i b m) :
    (∀ b' m', body.advance callees b m = .ok (.continue b') m' → a.Describes b') ∧
      ∀ e m', body.advance callees b m = .error (.failure e) m' → e.IsFault →
        callees.Raises i b m e m' := by
  obtain ⟨f, hf, hfits⟩ := hb
  obtain ⟨hwell, j, after, hj, hstep, htargets, hedges⟩ :=
    (analyzed.fixpoint analyzed.ascending_narrows
      (Frame.entry_wellFormed analyzed.arguments_le)).2 hf
  have hinstructions := (Body.ofCode_inv hbody).1
  obtain rfl : i = j := Option.some.inj (hi.symm.trans (hinstructions ▸ hj))
  -- an activation that fits what goes along an edge fits the frame there
  have harrive : ∀ {via target} {x : Activation}, c.Edge b.index via target →
      (∀ sent, Frame.along h f after via = .ok sent → x.Fits sent) → x.index = target →
      a.Describes x := by
    rintro via target x hedge hx rfl
    obtain ⟨sent, g, halong, hg, hnarrows⟩ := hedges via _ hedge
    exact ⟨g, hg, (hx sent halong).narrows hnarrows⟩
  have hexecute := Step.execute_fits hwell ⟨rfl, hfits⟩ hd hstep
  rw [Body.advance_eq hi]
  simp only [Step.Gives] at hexecute
  split at hexecute
  · rename_i progress x m₁ hx
    obtain ⟨hcontinues, hindex, hfits'⟩ := hexecute
    rw [hx]
    cases progress with
    | next =>
      refine ⟨fun b' m' hnext => ?_, fun e m' he => (by cases he)⟩
      cases hnext
      refine harrive (.next hj hcontinues) (fun sent hsent => ?_) (by rw [hindex])
      cases hsent
      exact ⟨hfits'.locals, hfits'.stack, hfits'.size⟩
    | jump l =>
      obtain ⟨target, htarget⟩ := htargets l hcontinues
      have hplace := analyzed.find_iff.mp htarget
      simp only [Body.afterExecute, (Body.find_iff hbody).mpr hplace]
      refine ⟨fun b' m' hnext => ?_, fun e m' he => (by cases he)⟩
      cases hnext
      refine harrive (.jump hj hcontinues hplace) (fun sent hsent => ?_) rfl
      cases hsent
      exact ⟨hfits'.locals, hfits'.stack, hfits'.size⟩
    | done v => exact ⟨fun b' m' hnext => (by cases hnext), fun e m' he => (by cases he)⟩
  · rename_i r m₁ hx
    rw [hx]
    simp only [Body.afterExecute]
    cases hhandle : body.handle b r m₁ with
    | ok x m₂ =>
      refine ⟨fun b' m' hnext => ?_, fun e m' he => (by cases he)⟩
      cases hnext
      obtain ⟨y, entry, hedge, rfl⟩ := Body.handle_edge hbody hhandle
      refine harrive hedge (fun sent hsent => ?_) rfl
      have hbefore : Activation.Fits (f.handler y.caught)
          { b with stack := [.ref r], index := entry } :=
        ⟨hfits.locals, .cons (.inr ⟨r, rfl⟩) .nil, hfits.size⟩
      exact hbefore.narrows (Frame.merge_narrows (hwell.handler y.caught)
        ((Frame.step_wellFormed hwell hstep).handler y.caught) hsent).1
    | error e m₂ =>
      refine ⟨fun b' m' hnext => (by cases hnext), fun e' m' he hfault => ?_⟩
      cases he
      exact absurd hfault ((Body.handle_mild body b r).faultless m₁ e' _ hhandle)
  · rename_i e m₁ hx
    rw [hx]
    refine ⟨fun b' m' hnext => (by cases hnext), fun e' m' he hfault => ?_⟩
    cases he
    exact hexecute hfault

/-! ## Runs -/

/-- Every value that is delivered on a run has the kind that is declared for it. -/
def Body.Supplied (callees : Callees) (body : Body) (b : Activation) (m : Machine) : Prop :=
  ∀ x m' i, Reaches callees body b m x m' → body.instructions[x.index]? = some i →
    callees.Delivers i x m'

theorem Body.Supplied.later {callees : Callees} (h : Supplied callees body b m)
    (hlater : Reaches callees body b m b' m') : Supplied callees body b' m' :=
  fun x m' i hx hi => h x m' i (hlater.trans hx) hi

theorem Analysis.Describes.instruction (analyzed : Analyzed h owner name d isStatic c a)
    (hbody : Body.ofCode c = .ok body) (hb : a.Describes b) :
    ∃ i, body.instructions[b.index]? = some i := by
  obtain ⟨f, hf, -⟩ := hb
  obtain ⟨-, i, -, hi, -⟩ := (analyzed.fixpoint analyzed.ascending_narrows
    (Frame.entry_wellFormed analyzed.arguments_le)).2 hf
  rw [(Body.ofCode_inv hbody).1]
  exact ⟨i, hi⟩

/-- All activations of a run fit. -/
theorem Analyzed.reaches_fits (analyzed : Analyzed h owner name d isStatic c a)
    (hbody : Body.ofCode c = .ok body) (hreach : Body.Reaches callees body b m b' m')
    (hb : a.Describes b) (hsupplied : body.Supplied callees b m) : a.Describes b' := by
  induction hreach with
  | refl => exact hb
  | step hfirst _ ih =>
    obtain ⟨i, hi⟩ := hb.instruction analyzed hbody
    have hnext := (analyzed.advance_fits hbody hb hi (hsupplied _ _ i (.refl _ _) hi)).1 _ _ hfirst
    exact ih hnext (hsupplied.later (.single hfirst))

/-- A fault of a run is that of someone who was asked. -/
theorem Analyzed.runFor_fault (analyzed : Analyzed h owner name d isStatic c a)
    (hbody : Body.ofCode c = .ok body) {limit steps : Nat} {e : RunError} (hfault : e.IsFault)
    (hrun : body.runFor callees limit steps b m = .error (.failure e) m') (hb : a.Describes b)
    (hsupplied : body.Supplied callees b m) :
    ∃ x m₁ i, Body.Reaches callees body b m x m₁ ∧ body.instructions[x.index]? = some i ∧
      callees.Raises i x m₁ e m' := by
  -- As long as the activation is as the analysis describes it, a step raises no fault of its own,
  -- and it leaves the activation so.
  induction steps generalizing b m with
  | zero =>
    cases hrun
    cases hfault
  | succ steps ih =>
    obtain ⟨i, hi⟩ := hb.instruction analyzed hbody
    have hdelivers := hsupplied _ _ i (.refl _ _) hi
    simp only [Body.runFor, bind, EStateM.bind] at hrun
    split at hrun
    · rename_i next m₁ hfirst
      cases next with
      | «continue» x =>
        have hnext := (analyzed.advance_fits hbody hb hi hdelivers).1 _ _ hfirst
        obtain ⟨y, m₂, j, hreach, hj, hraises⟩ :=
          ih hrun hnext (hsupplied.later (.single hfirst))
        exact ⟨y, m₂, j, .step hfirst hreach, hj, hraises⟩
      | «return» v => cases hrun
    · rename_i hfirst
      cases hrun
      exact ⟨b, m, i, .refl _ _, hi,
        (analyzed.advance_fits hbody hb hi hdelivers).2 e _ hfirst hfault⟩

/-- A stack that fits takes as many words as the frame says. -/
theorem Activation.Fits.words_eq {f : Frame} (hb : b.Fits f) (hne : ∀ t ∈ f.stack, t ≠ .top) :
    (b.stack.map Value.width).sum = f.words := by
  have hstack := hb.stack
  simp only [Frame.words]
  generalize f.stack = types, b.stack = values at hne hstack
  induction hstack with
  | nil => rfl
  | cons hv _ ih =>
    obtain ⟨ht, hne⟩ := List.forall_mem_cons.mp hne
    rw [List.map_cons, List.sum_cons, List.foldr_cons, ih hne, hv.width_eq ht]

/-- **Analysis and machine agree.** On every run of an analyzed body from arguments as the method
declares, there is a frame at each instruction that is executed. The stack holds values of the kinds
that the frame says, one for each entry, and so do the locals that can be used; the stack is not
deeper than the limit, and no local beyond the limit is used. A fault that ends the run is that of a
method or a class that the activation asked for. -/
theorem analyzeCode_agrees (hok : analyzeCode h owner name d isStatic c = .ok a)
    (hbody : Body.ofCode c = .ok body) (hargs : d.Admits owner name isStatic arguments)
    (method : String) (hsupplied : body.Supplied callees (.start method arguments) m) :
    (∀ b m', Body.Reaches callees body (.start method arguments) m b m' →
      ∃ i f, c.instructions[b.index]? = some i ∧ a.frames.getD b.index none = some f ∧
        b.Fits f ∧ (∀ t ∈ f.stack, t ≠ .top) ∧ (b.stack.map Value.width).sum ≤ a.maxStack ∧
        i.localExtent ≤ a.maxLocals ∧ b.locals.size ≤ a.maxLocals) ∧
      ∀ limit steps e m',
        body.runFor callees limit steps (.start method arguments) m = .error (.failure e) m' →
        e.IsFault → ∃ b m₁ i, Body.Reaches callees body (.start method arguments) m b m₁ ∧
          c.instructions[b.index]? = some i ∧ callees.Raises i b m₁ e m' := by
  obtain ⟨analyzed⟩ := analyzeCode_analyzed hok
  have hinstructions := (Body.ofCode_inv hbody).1
  obtain ⟨⟨g, hg, hentry⟩, hall⟩ := analyzed.fixpoint analyzed.ascending_narrows
    (Frame.entry_wellFormed analyzed.arguments_le)
  have hstart : a.Describes (.start method arguments) :=
    ⟨g, hg, (Activation.start_fits method analyzed.arguments_le hargs).narrows hentry⟩
  refine ⟨fun b m' hreach => ?_, fun limit steps e m' hrun hfault => ?_⟩
  · obtain ⟨f, hf, hfits⟩ := analyzed.reaches_fits hbody hreach hstart hsupplied
    obtain ⟨hwell, i, -, hi, -⟩ := hall hf
    refine ⟨i, f, hi, hf, hfits, hwell.stack, ?_, analyzed.extent_le hi, ?_⟩
    · rw [hfits.words_eq hwell.stack]
      exact analyzed.words_le hf
    · exact hwell.length ▸ hfits.size
  · obtain ⟨b, m₁, i, hreach, hi, hraises⟩ :=
      analyzed.runFor_fault hbody hfault hrun hstart hsupplied
    exact ⟨b, m₁, i, hreach, hinstructions ▸ hi, hraises⟩

end

namespace Quotient

/-- The class of the sample. -/
def owner : ClassName := { text := "Quotient" }

/-- Takes two numbers of different widths. -/
def descriptor : MethodDescriptor := ⟨[.int, .long], some .long⟩

/-- A call that gives a long number. -/
def next : MethodRef := ⟨owner, .run, ⟨[], some .long⟩⟩

/-- Divides one by the first argument and adds to the second one, which it gives as it is if that was
a division by zero. -/
def code : Code where
  maxLocals := 3
  maxStack := 4
  instructions := #[.label ⟨0⟩, .pushInt 1, .load .int 0, .arith .div .int, .store .int 0,
    .invoke .static next, .label ⟨1⟩, .load .long 1, .arith .add .long, .returnValue .long,
    .label ⟨2⟩, .stack .pop, .load .long 1, .returnValue .long]
  handlers := [⟨⟨0⟩, ⟨1⟩, ⟨2⟩, none⟩]
  stackMap := none
  nextLabel := ⟨3⟩

/-- Others that answer every call with a number. -/
def callees : Callees := ⟨fun _ _ _ => pure (some (.long 1)), fun _ => pure ()⟩

/-- The body with its labels looked up. -/
def body : Body := (Body.ofCode code).toOption.getD default

theorem body_eq : Body.ofCode code = .ok body := by rfl

theorem body_supplied (b : Activation) (m : Machine) : body.Supplied callees b m := by
  intro x m' i _ hi
  have hmem := Array.mem_of_getElem? hi
  rw [(Body.ofCode_inv body_eq).1] at hmem
  simp only [code, List.mem_toArray, List.mem_cons, List.not_mem_nil, or_false] at hmem
  rcases hmem with rfl | rfl | rfl | rfl | rfl | rfl | rfl | rfl | rfl | rfl | rfl | rfl | rfl | rfl
  case inr.inr.inr.inr.inr.inl =>
    intro result m'' h
    cases h
    exact .some ⟨_, rfl⟩
  all_goals exact trivial

/-- Where the sample begins, with a divisor that is zero. -/
def start : Activation := .start "Quotient.run(IJ)J" [.int 0, .long 7]

theorem start_admits : descriptor.Admits owner .run true [.int 0, .long 7] :=
  .cons ⟨_, rfl⟩ (.cons ⟨_, rfl⟩ .nil)

/-- Dividing by zero leads to the handler. -/
theorem reaches_handler : ∃ b m', Body.Reaches callees body start .new b m' ∧ b.index = 11 :=
  ⟨_, _, .step rfl (.step rfl (.step rfl (.step rfl (.step rfl (.refl _ _))))), rfl⟩

/-- The handler finds what was thrown, and the second argument where it was. -/
theorem code_frames : ∃ a, analyzeCode ⟨[]⟩ owner .run descriptor true code = .ok a ∧
    a.frames.getD 11 none = some ⟨[.integer, .long, .top], [.ofClass .throwable]⟩ := by
  have hany : (analyzeCode ⟨[]⟩ owner .run descriptor true code).toOption.any (fun a =>
      a.frames.getD 11 none = some ⟨[.integer, .long, .top], [.ofClass .throwable]⟩) = true := by
    decide +kernel
  cases hok : analyzeCode ⟨[]⟩ owner .run descriptor true code with
  | ok a =>
    rw [hok] at hany
    exact ⟨a, rfl, of_decide_eq_true hany⟩
  | error e =>
    rw [hok] at hany
    cases hany

end Quotient

/-- In the handler of a division by zero there is one reference on the stack. -/
theorem analyzeCode_agrees_quotient : ∃ a b m',
    analyzeCode ⟨[]⟩ Quotient.owner .run Quotient.descriptor true Quotient.code = .ok a ∧
      Body.Reaches Quotient.callees Quotient.body Quotient.start .new b m' ∧ b.index = 11 ∧
      b.Fits ⟨[.integer, .long, .top], [.ofClass .throwable]⟩ ∧
      (b.stack.map Value.width).sum ≤ a.maxStack := by
  obtain ⟨a, hok, hframe⟩ := Quotient.code_frames
  obtain ⟨b, m', hreach, hindex⟩ := Quotient.reaches_handler
  obtain ⟨hall, -⟩ := analyzeCode_agrees hok Quotient.body_eq Quotient.start_admits
    "Quotient.run(IJ)J" (Quotient.body_supplied _ .new)
  obtain ⟨i, f, -, hf, hfits, -, hwords, -⟩ := hall b m' hreach
  rw [hindex, hframe] at hf
  cases hf
  exact ⟨a, b, m', hok, hreach, hindex, hfits, hwords⟩

end Resumption
