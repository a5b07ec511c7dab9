import Resumption.Proofs.Coroutine.Failures
import Resumption.Proofs.Instrument.Unwinding

/-!
# Executions that cannot restore

An execution of a suspended coroutine ends when a method does not accept its method state, however
deep it is in the chain of methods (`Coroutine.execute_rejected`). The exception is not caught, and
the continuation is what it was before the execution began.
-/

namespace Resumption

namespace Coroutine

variable {settings : Settings} {h : Hierarchy} {c : Coroutine} {k : Continuation Ref}

/-- An execution that calls a method whose run is known. -/
theorem execute_eq {f : Restored settings h} (hk : c.state = .ok k) {owner : ClassName}
    {fields : FieldValues} (hobject : c.machine.object? c.object = some (.instance owner fields))
    (harguments : f.arguments = [.ref c.object, .ref c.continuation])
    (hdispatches : c.machine.Dispatches .virtual (entryPoint owner) f.arguments f.owner
      f.made.method) {limit : Nat} {e : Abrupt} {m : Machine}
    (hrun : f.run limit c.machine.maxDepth (c.setState k.beginCycle).machine = .error e m) :
    c.executeWithin limit = (.error (m.settle e), { c with machine := m }) := by
  have hadds : c.machine.Adds [c.continuation] (c.setState k.beginCycle).machine :=
    .put c.machine (state_ok_iff.mp hk) (.continuation k k.beginCycle)
  have hobject' : (c.setState k.beginCycle).machine.object? c.object =
      some (.instance owner fields) :=
    hadds.sameBut.other (state_ok_iff.mp hk) hobject rfl
  have hinvoke : Run.invokeWithin limit .virtual (entryPoint owner)
      [.ref c.object, .ref c.continuation] (c.setState k.beginCycle).machine = .error e m := by
    have hdispatches' := hdispatches.later hadds.later
    rw [harguments] at hdispatches'
    rw [Restored.run, harguments] at hrun
    simp only [Run.invokeWithin, bind, EStateM.bind, get, getThe, MonadStateOf.get, EStateM.get,
      hadds.later.maxDepth, hdispatches'.call, hrun]
  simp only [executeWithin, hk]
  have hself : (c.setState k.beginCycle).object = c.object := rfl
  have hsame : (c.setState k.beginCycle).continuation = c.continuation := rfl
  simp only [hself, hsame, objectAt_of_some hobject', Machine.perform, hinvoke]

/-- **A restore that fails rewinds the continuation once.** The outermost states that are saved, from
the first one to be loaded, belong to a chain of methods of which the last one does not accept its
state. Then the methods are called one after the other, each with its state, the last one throws an
exception and undoes the restore, and the execution ends with that exception: the same states are
saved, and everything else about the continuation is as it was before the cycle. Calls may nest as deep
as the chain is long. How many steps are enough does not depend on how many are allowed, and with all
limits from there on the execution ends in the same way. -/
theorem execute_rejected {f : Restored settings h} {rest : List (Restored settings h)}
    (hk : c.state = .ok k) (hserves : c.machine.Serves settings) {owner : ClassName}
    {fields : FieldValues} (hobject : c.machine.object? c.object = some (.instance owner fields))
    (harguments : f.arguments = [.ref c.object, .ref c.continuation])
    (hdispatches : c.machine.Dispatches .virtual (entryPoint owner) f.arguments f.owner
      f.made.method)
    (hdoomed : Doomed c.machine c.continuation f rest)
    (hsaved : (f :: rest).map (·.state) <+: k.saved.drop k.first)
    (hdepth : rest.length < c.machine.maxDepth) :
    ∃ exception c' enough, (∀ limit, enough ≤ limit →
        c.executeWithin limit = (.error (.uncaught .illegalStateException
          (some "Unrecognized continuation point")), c') ∧
        Unwinds limit c.continuation exception c'.machine c.machine.maxDepth f rest k.beginCycle
          (c.setState k.beginCycle).machine) ∧
      c'.state = .ok { k with
        mode := .normal, nextLoad := k.first, nextUnload := none, cutpoints := []
        firstCutpoint := none } ∧
      c'.machine.pool.rollbacks = c.machine.pool.rollbacks + settings.rollbacks := by
  have hc := state_ok_iff.mp hk
  have hbegun : (c.setState k.beginCycle).machine =
    c.machine.put c.continuation (.continuation k.beginCycle) := rfl
  have hadds : c.machine.Adds [c.continuation] (c.setState k.beginCycle).machine :=
    hbegun ▸ .put c.machine hc (.continuation k k.beginCycle)
  have hloading : k.beginCycle.mode = .loading := by
    have hnext := (cons_prefix_drop hsaved).1
    have hnonempty : k.saved.isEmpty = false := by
      cases hempty : k.saved with
      | nil =>
        rw [hempty] at hnext
        cases hnext
      | cons => rfl
    rw [Continuation.beginCycle, hnonempty]
    rfl
  obtain ⟨enough, exception, m, hunwinds⟩ := hdoomed.unwinds hc hdepth (hserves.adds hadds)
    (.of_adds hadds) (hbegun ▸ Machine.object?_put_self hc) hloading hsaved
  have hrewound := hunwinds.rewound
  refine ⟨exception, { c with machine := m }, enough, fun limit hlimit => ?_,
    state_ok_iff.mpr hrewound.continuation, ?_⟩
  · have hunwinds' := hunwinds.mono hlimit
    refine ⟨?_, hunwinds'⟩
    rw [execute_eq hk hobject harguments hdispatches hunwinds'.run_eq, Machine.settle,
      hrewound.unrecognized.uncaught]
  · exact hrewound.rollbacks.trans (congrArg (· + _) hadds.rollbacks)

/-! ## A method state for other code, one call further in -/

namespace Nap

/-- The class of the sample. -/
def owner : ClassName := { text := "Nap" }

/-- A body with some instructions and nothing else. -/
def codeOf (maxLocals : Nat) (instructions : Array Instruction) : Code where
  maxLocals := maxLocals
  maxStack := 1
  instructions := instructions
  handlers := []
  stackMap := none
  nextLabel := ⟨0⟩

/-- Suspends. -/
def rest : Method where
  name := { text := "rest" }
  descriptor := ⟨[.object .continuation], none⟩
  flags := staticFlag
  annotations := []
  code := some (codeOf 1 #[.load .object 0, .invoke .virtual Interface.Continuation.suspend,
    .returnVoid])

/-- The call of the method that suspends. -/
def restRef : MethodRef := ⟨owner, rest.name, rest.descriptor⟩

/-- Calls the method that suspends. -/
def code : Code := codeOf 2 #[.load .object 1, .invoke .static restRef, .returnVoid]

/-- Calls the method that suspends. -/
def run : Method where
  name := .run
  descriptor := ⟨[.object .continuation], none⟩
  flags := 0
  annotations := []
  code := some code

/-- A method is made suspendable under the name that it has. -/
def Keeps (method : Method) (made : SuspendableMethod) : Prop :=
  made.method.name = method.name ∧ made.method.descriptor = method.descriptor ∧
    made.method.code.isSome = true

instance (method : Method) (made : SuspendableMethod) : Decidable (Keeps method made) :=
  inferInstanceAs (Decidable (_ ∧ _))

/-- What is computed of a method of the sample is what is made of it. -/
theorem suspendable {method : Method} (h : (makeSuspendable .standard Library.hierarchy owner
      method).toOption.join.any (decide <| Keeps method ·) = true) :
    ∃ made, makeSuspendable .standard Library.hierarchy owner method = .ok (some made) ∧
      Keeps method made := by
  obtain ⟨made, hmade, hkeeps⟩ := (Option.any_eq_true ..).mp h
  exact ⟨made, ok_of_join hmade, of_decide_eq_true hkeeps⟩

/-- The method that calls can be made suspendable. -/
theorem run_suspendable : ∃ made,
    makeSuspendable .standard Library.hierarchy owner run = .ok (some made) ∧ Keeps run made :=
  suspendable (by
    unfold makeSuspendable MethodPlan.generate
    simp only [withMetadata_eq]
    decide +kernel)

/-- The method that suspends can be made suspendable. -/
theorem rest_suspendable : ∃ made,
    makeSuspendable .standard Library.hierarchy owner rest = .ok (some made) ∧ Keeps rest made :=
  suspendable (by
    unfold makeSuspendable MethodPlan.generate
    simp only [withMetadata_eq]
    decide +kernel)

/-- What is planned for the method that calls the other one. -/
theorem run_plan {plan : MethodPlan}
    (h : planMethod Settings.standard.policy Library.hierarchy owner run code 1 = .ok plan) :
    plan.points.map (fun p => (p.index, p.kind, p.frame)) =
        [(1, .invoke, ⟨[.ofClass owner, .ofClass .continuation], [.ofClass .continuation]⟩)] ∧
      plan.analysis.maxLocals = 2 ∧ plan.code.hasMonitors = false ∧ plan.code.handlers = [] ∧
      plan.code.instructions[1]? = some (.invoke .static restRef) := by
  have hplan : ((planMethod Settings.standard.policy Library.hierarchy owner run code 1).toOption.all
      fun plan => plan.points.map (fun p => (p.index, p.kind, p.frame)) =
        [(1, .invoke, ⟨[.ofClass owner, .ofClass .continuation], [.ofClass .continuation]⟩)] ∧
      plan.analysis.maxLocals = 2 ∧ plan.code.hasMonitors = false ∧ plan.code.handlers = [] ∧
      plan.code.instructions[1]? = some (.invoke .static restRef)) = true := by
    decide +kernel
  rw [h] at hplan
  exact of_decide_eq_true hplan

/-- An object that holds objects only. -/
def objects (array : Ref) : HeapObject :=
  .data { ints := .null, longs := .null, floats := .null, doubles := .null, objects := .ref array }

theorem holds_objects {m : Machine} {r array : Ref} {type : RefType} {values : List SavedValue}
    {value : SavedValue → Value} {elements : List Value} (ho : m.object? r = some (objects array))
    (harray : m.object? array = some (.array type elements.toArray)) (hne : elements ≠ [])
    (hobjects : values.filter (·.kind = .object) = values) (helements : values.map value = elements) :
    m.HoldsData (.ref r) values value := by
  refine ⟨r, _, rfl, ho, fun kind => ?_⟩
  by_cases hkind : kind = .object
  · subst hkind
    rw [hobjects, helements]
    exact .inr ⟨array, type, hne, rfl, harray⟩
  · have hnone : values.filter (·.kind = kind) = [] := by
      rw [← hobjects, List.filter_filter]
      refine List.filter_eq_nil_iff.mpr fun x _ h => ?_
      obtain ⟨h, hobject⟩ := Bool.and_eq_true_iff.mp h
      exact hkind ((of_decide_eq_true h).symm.trans (of_decide_eq_true hobject))
    rw [hnone]
    refine .inl ⟨rfl, ?_⟩
    cases kind with
    | object => exact absurd rfl hkind
    | _ => rfl

/-- The class with its methods made suspendable. -/
def classOf (methods : List Method) : Class where
  name := owner
  superclass := some .object
  interfaces := []
  flags := 0
  fields := []
  methods := methods
  attributes := []

/-- A machine with a coroutine that is suspended in the inner method. -/
def napping (methods : List Method) (outer inner : MethodState) : Machine :=
  { Machine.new with
    classes := [classOf methods]
    initialized := [owner]
    heap := #[.printStream, .continuation (.ofSaved [⟨7⟩, ⟨8⟩]), .instance owner [],
      .array (.array (.object .object)) #[.ref ⟨2⟩, .ref ⟨1⟩], objects ⟨3⟩,
      .array (.array (.object .object)) #[.ref ⟨1⟩], objects ⟨5⟩,
      .methodState outer, .methodState inner] }

/-- Calls find the methods of the class. -/
theorem implementation?_classOf {outer inner : SuspendableMethod} (houter : Keeps run outer)
    (hinner : Keeps rest inner) :
    Run.implementation? [classOf [outer.method, inner.method]] run.name run.descriptor 2 owner =
        some (classOf [outer.method, inner.method], outer.method) ∧
      Run.implementation? [classOf [outer.method, inner.method]] rest.name rest.descriptor 2 owner =
        some (classOf [outer.method, inner.method], inner.method) := by
  have hclass : [classOf [outer.method, inner.method]].find? (·.name = owner) =
    some (classOf [outer.method, inner.method]) := rfl
  have hmethods : (classOf [outer.method, inner.method]).methods = [outer.method, inner.method] := rfl
  have hdiffer : ¬ run.name = rest.name := by decide
  simp only [Run.implementation?, hclass, hmethods, List.find?_cons, Method.isNamed, houter.1,
    houter.2.1, houter.2.2, hinner.1, hinner.2.1, hinner.2.2, hdiffer, decide_true, decide_false,
    Bool.and_true, Bool.false_and, and_self]

section

variable {made : SuspendableMethod} (g : Generated .standard Library.hierarchy owner run made)
  (p : SuspendPoint)

/-- The activation that was suspended at the call. -/
def suspended : Activation where
  method := "run"
  locals := #[.ref ⟨2⟩, .ref ⟨1⟩, .ref ⟨1⟩]
  stack := [.ref ⟨1⟩]
  index := g.parts.position p.index

/-- Its method state. -/
def outerState : MethodState where
  owner := g.plan.owner.text
  id := g.plan.id
  version := g.plan.version
  point := Int32.ofNat p.id
  lockState := .null
  locals := .ref ⟨4⟩
  stack := .ref ⟨6⟩

variable {g p} (methods : List Method) (inner : MethodState)

/-- The activation of the sample is at its point. -/
theorem suspended_atPoint (hframe : p.frame =
      ⟨[.ofClass owner, .ofClass .continuation], [.ofClass .continuation]⟩)
    (hsize : g.size = 2) :
    g.AtPoint p (suspended g p) (napping methods (outerState g p) inner) ⟨1⟩ := by
  have hcontinuation : Value.Conforms (napping methods (outerState g p) inner)
      (.ofClass .continuation) (.ref ⟨1⟩) := by
    refine .inr ⟨⟨1⟩, rfl, ?_⟩
    rw [Run.isInstance_eq rfl]
    rfl
  have howner : Value.Conforms (napping methods (outerState g p) inner) (.ofClass owner)
      (.ref ⟨2⟩) := by
    refine .inr ⟨⟨2⟩, rfl, ?_⟩
    rw [Run.isInstance_eq rfl]
    rfl
  refine ⟨rfl, ⟨fun slot t ht => ?_, ?_⟩, ?_⟩
  · rw [hframe] at ht
    match slot, ht with
    | 0, ht => cases ht; exact howner
    | 1, ht => cases ht; exact hcontinuation
  · rw [hframe]
    exact .cons hcontinuation .nil
  · rw [hsize]
    rfl

/-- Its state is one that the point saves. -/
theorem saved_suspended (hkind : p.kind = .invoke) (hframe : p.frame =
      ⟨[.ofClass owner, .ofClass .continuation], [.ofClass .continuation]⟩)
    (hsize : g.size = 2) (hmonitors : g.plan.code.hasMonitors = false) (at_ : g.Located p) :
    Nonempty (Generated.Saved at_ (suspended g p) (napping methods (outerState g p) inner) ⟨7⟩) := by
  have hpoint := suspended_atPoint methods inner hframe hsize
  obtain ⟨hsavable, hlocals⟩ := hpoint.savable at_
  have hresumed : (p.resumedStack (suspended g p).stack).reverse = [.ref ⟨1⟩] := by
    rw [SuspendPoint.resumedStack, hkind]
    rfl
  rw [hresumed] at hsavable hlocals
  have hleased := at_.q.leased
  rw [SuspendPoint.stackToSave, hkind, hframe] at hleased
  obtain ⟨x, xs, hx, hxs, hleases⟩ := List.forall₂_cons_left_iff.mp hleased
  cases hxs
  obtain ⟨lease, rfl, hlease⟩ := Option.map_eq_some_iff.mp hx
  have hspilled := hsavable.spilled lease (.ref ⟨1⟩) (by rw [hleases]; exact List.mem_cons_self ..)
  have howner := hlocals 0 (.ofClass owner) (by rw [hframe]; rfl) (by decide)
  have hcontinuation := hlocals 1 (.ofClass .continuation) (by rw [hframe]; rfl) (by decide)
  generalize Body.spilled (suspended g p) at_.q.leases [.ref ⟨1⟩] = o at *
  generalize hm : napping methods (outerState g p) inner = m at *
  have hlocalData : m.HoldsData (.ref ⟨4⟩) p.savedLocals (fun x => o.valueAt x.slot) := by
    have hdata : m.object? ⟨4⟩ = some (objects ⟨3⟩) := hm ▸ rfl
    have harray : m.object? ⟨3⟩ = some (.array (.array (.object .object))
      [.ref ⟨2⟩, .ref ⟨1⟩].toArray) := hm ▸ rfl
    rw [SuspendPoint.savedLocals, hframe]
    refine holds_objects hdata harray (List.cons_ne_nil _ _) rfl ?_
    exact congrArg₂ (fun v w => [v, w]) howner hcontinuation
  have hstackData : m.HoldsData (.ref ⟨6⟩) (savedStack p.stackToSave at_.q.leases)
      (fun x => o.valueAt x.slot) := by
    have hdata : m.object? ⟨6⟩ = some (objects ⟨5⟩) := hm ▸ rfl
    have harray : m.object? ⟨5⟩ = some (.array (.array (.object .object)) [.ref ⟨1⟩].toArray) :=
      hm ▸ rfl
    rw [SuspendPoint.stackToSave, hkind, hframe, hleases]
    refine holds_objects hdata harray (List.cons_ne_nil _ _) ?_ (congrArg (fun v => [v]) hspilled)
    refine List.filter_eq_self.mpr fun x hx => ?_
    cases List.mem_singleton.mp hx
    exact decide_eq_true hlease
  exact ⟨{ o, values := [.ref ⟨1⟩], lockState := .null, savable := hsavable, locals := hlocals
           stack := by rw [SuspendPoint.resumedStack, hkind]; rfl
           recorded := ⟨.ref ⟨4⟩, .ref ⟨6⟩, by rw [at_.plan_eq, ← hm]; rfl, hlocalData, hstackData⟩
           relocks := by
            have hnone : at_.l.monitors = none := by
              refine Option.not_isSome_iff_eq_none.mp ?_
              rw [at_.monitors_eq, hmonitors]
              exact Bool.false_ne_true
            simp only [Body.Relocks, hnone] }⟩

end

/-- A method state for other code. -/
def otherState (plan : MethodPlan) : MethodState where
  owner := owner.text
  id := plan.id + 1
  version := plan.version
  point := 0
  lockState := .null
  locals := .null
  stack := .null

/-- The other state belongs to another method. -/
theorem otherState_id_ne (plan : MethodPlan) : (otherState plan).id ≠ plan.id := by
  intro h
  simp [otherState] at h

section

variable {outer inner : SuspendableMethod}
  (g : Generated .standard Library.hierarchy owner run outer)
  (g' : Generated .standard Library.hierarchy owner rest inner)

/-- The activation that has called. -/
def outerFrame (inner : SuspendableMethod) : Restored .standard Library.hierarchy where
  owner := classOf [outer.method, inner.method]
  method := run
  made := outer
  generated := g
  arguments := [.ref ⟨2⟩, .ref ⟨1⟩]
  state := ⟨7⟩

/-- The activation that has suspended. -/
def innerFrame (outer : SuspendableMethod) : Restored .standard Library.hierarchy where
  owner := classOf [outer.method, inner.method]
  method := rest
  made := inner
  generated := g'
  arguments := [.ref ⟨1⟩]
  state := ⟨8⟩

/-- The coroutine, suspended at a point. -/
def coroutine (p : SuspendPoint) : Coroutine where
  machine := napping [outer.method, inner.method] (outerState g p) (otherState g'.plan)
  object := ⟨2⟩
  continuation := ⟨1⟩

/-- What is not native is found in the class. -/
theorem dispatches {p : SuspendPoint} {kind : CallKind} {ref : MethodRef} {arguments : List Value}
    {method : Method} (hnative : Machine.standardNatives.lookup ref = none)
    (hstart : (coroutine g g' p).machine.StartsAt kind ref arguments owner)
    (hfound : Run.implementation? [classOf [outer.method, inner.method]] ref.name ref.descriptor 2
      owner = some (classOf [outer.method, inner.method], method)) :
    (coroutine g g' p).machine.Dispatches kind ref arguments
      (classOf [outer.method, inner.method]) method :=
  ⟨hnative, owner, hstart, hfound⟩

/-- The call of the inner method is the only point of the outer one. -/
theorem doomed (houter : Keeps run outer) (hinner : Keeps rest inner) : ∃ p,
    Doomed (coroutine g g' p).machine ⟨1⟩ (outerFrame g inner) [innerFrame g' outer] := by
  have hwritten : g.written = code := Option.some.inj g.written_eq.symm
  have hslot : g.plan.continuationSlot = 1 := Option.some.inj (g.slot_eq.symm.trans (by decide))
  have hplan := g.plan_eq
  rw [hwritten, hslot] at hplan
  obtain ⟨hpoints, hsize, hmonitors, hhandlers, hcall⟩ := run_plan hplan
  obtain ⟨p, hp, hpoint⟩ := List.map_eq_singleton_iff.mp hpoints
  injection hpoint with hindex hpoint
  injection hpoint with hkind hframe
  have hmem : p ∈ g.plan.points := by rw [hp]; exact List.mem_singleton_self p
  obtain ⟨at_⟩ := g.located hmem
  obtain ⟨hatKind, hatRef⟩ := at_.call_unique (hindex ▸ hcall)
  obtain ⟨hsaved⟩ := saved_suspended [outer.method, inner.method] (otherState g'.plan) hkind
    hframe hsize hmonitors at_
  have hcalled : run.Called owner ⟨1⟩ [.ref ⟨2⟩, .ref ⟨1⟩] := ⟨.cons rfl (.cons rfl .nil), rfl⟩
  have hcalled' : rest.Called owner ⟨1⟩ [.ref ⟨1⟩] := ⟨.cons rfl .nil, rfl⟩
  have hdiffers := otherState_id_ne g'.plan
  refine ⟨p, .intact hcalled (by rw [outerFrame, hp]; exact Nat.one_le_two_pow) at_ hkind hsaved
    ?_ ?_ ?_ (.rejected hcalled' rfl (fun h => hdiffers h.1) fun hid => absurd hid hdiffers)⟩
  · intro x hx
    rw [outerFrame, hhandlers] at hx
    cases hx
  · rw [← hatKind, ← hatRef]
    rfl
  · rw [← hatKind, ← hatRef]
    exact dispatches g g' (by decide +kernel) ⟨rfl, List.mem_singleton_self owner⟩
      (implementation?_classOf houter hinner).2

end

end Nap

open Nap in
/-- The inner method does not accept its method state, which belongs to other code. -/
theorem execute_rejected_nap : ∃ (c : Coroutine) (k : Continuation Ref)
    (f f' : Restored .standard Library.hierarchy), f.method = run ∧ f'.method = rest ∧
      c.state = .ok k ∧ k.saved.length = 2 ∧ Doomed c.machine c.continuation f [f'] ∧
      ∃ exception c' enough, (∀ limit, enough ≤ limit →
          c.executeWithin limit = (.error (.uncaught .illegalStateException
            (some "Unrecognized continuation point")), c') ∧
          Unwinds limit c.continuation exception c'.machine c.machine.maxDepth f [f'] k.beginCycle
            (c.setState k.beginCycle).machine) ∧
        c'.state = .ok { k with
          mode := .normal, nextLoad := k.first, nextUnload := none, cutpoints := []
          firstCutpoint := none } ∧
        c'.machine.pool.rollbacks = c.machine.pool.rollbacks := by
  obtain ⟨outer, houter, hkeeps⟩ := run_suspendable
  obtain ⟨inner, hinner, hkeeps'⟩ := rest_suspendable
  obtain ⟨g⟩ := makeSuspendable_generated houter
  obtain ⟨g'⟩ := makeSuspendable_generated hinner
  obtain ⟨p, hdoomed⟩ := doomed g g' hkeeps hkeeps'
  have hk : (coroutine g g' p).state = .ok (.ofSaved [⟨7⟩, ⟨8⟩]) := rfl
  have hnatives : ∀ e ∈ Machine.standardNatives,
    Machine.standardNatives.lookup e.1 = some e.2 := by decide
  have hserves : (coroutine g g' p).machine.Serves .standard :=
    { standard := hnatives, allocator := nofun, printing := nofun, literals := nofun }
  have hdispatches : (coroutine g g' p).machine.Dispatches .virtual (entryPoint owner)
      [.ref ⟨2⟩, .ref ⟨1⟩] (classOf [outer.method, inner.method]) outer.method :=
    dispatches g g' (by decide +kernel) ⟨⟨2⟩, [], rfl, rfl⟩
      (implementation?_classOf hkeeps hkeeps').1
  exact ⟨coroutine g g' p, .ofSaved [⟨7⟩, ⟨8⟩], _, _, rfl, rfl, hk, rfl, hdoomed,
    execute_rejected hk hserves rfl rfl hdispatches hdoomed (List.prefix_refl _)
      (show 1 < 256 by decide)⟩

/-! ## A method before the last one that cannot be restored -/

namespace Waiting

/-- Passes on what it is called with; the parameter is of an interface type. -/
def waitRef : MethodRef :=
  ⟨sleeper, { text := "wait" }, ⟨[.object .serializable, .object .continuation], none⟩⟩

/-- Suspends. -/
def leafRef : MethodRef := ⟨sleeper, { text := "leaf" }, ⟨[.object .continuation], none⟩⟩

/-- A method of the sample. -/
def methodOf (name : MemberName) (descriptor : MethodDescriptor) (flags : Nat)
    (instructions : Array Instruction) : Method where
  name := name
  descriptor := descriptor
  flags := flags
  annotations := []
  code := some (Nap.codeOf 2 instructions)

/-- Hands an object over as an interface that its class does not implement, which a call allows and
a cast does not. -/
def disguises : Class :=
  { classOf sleeper [] with
    methods := [
      methodOf .run ⟨[.object .continuation], none⟩ 0
        #[.load .object 0, .load .object 1, .invoke .static waitRef, .returnVoid],
      methodOf waitRef.name waitRef.descriptor staticFlag
        #[.load .object 1, .invoke .static leafRef, .returnVoid],
      methodOf leafRef.name leafRef.descriptor staticFlag
        #[.load .object 0, .invoke .virtual Interface.Continuation.suspend, .returnVoid]] }

/-- All methods of the sample can be made suspendable. -/
theorem disguises_made : ∀ m ∈ disguises.methods, (makeSuspendable .standard
    (disguises.within Library.hierarchy) disguises.name m).toOption.join.isSome = true := by
  unfold makeSuspendable MethodPlan.generate
  simp only [withMetadata_eq, disguises, List.forall_mem_cons]
  refine ⟨?_, ?_, ?_, List.forall_mem_nil _⟩
  · decide +kernel
  · decide +kernel
  · decide +kernel

/-- The error of an execution after the point of a saved state was changed, and whether all methods
have fewer points. -/
def misled (written : Class) (index : Nat) : Option (RunError × Bool) := do
  let (made, c) ← suspended written
  let c ← (c.modifySaved index fun s => { s with point := 99 }).toOption
  match c.execute with
  | (.error e, _) => return (e, made.summaries.all (·.points < 99))
  | _ => none

/-- What is computed of the sample is an execution after a change of a saved state. -/
theorem of_misled {written : Class} {index : Nat} {e : RunError}
    (h : misled written index = some (e, true)) : ∃ made c c' c'',
      suspended written = some (made, c) ∧ (∀ s ∈ made.summaries, s.points < 99) ∧
        c.modifySaved index (fun s => { s with point := 99 }) = .ok c' ∧
        c'.execute = (.error e, c'') := by
  obtain ⟨⟨made, c⟩, hsuspended, h⟩ := Option.bind_eq_some_iff.mp h
  obtain ⟨c', hc', h⟩ := Option.bind_eq_some_iff.mp h
  split at h
  · rename_i e' c'' hexecute
    injection h with h
    injection h with he hpoints
    exact ⟨made, c, c', c'', hsuspended,
      fun s hs => of_decide_eq_true (List.all_eq_true.mp hpoints s hs), of_toOption hc',
      he ▸ hexecute⟩
  · cases h

end Waiting

open Waiting in
/-- The innermost state has no point of its method, and nothing else was changed. But the method in
between has a local that cannot be cast back, so its state is not one of an intact method and the
execution fails there. -/
theorem execute_rejected_disguises : ∃ made c c' c'', suspended disguises = some (made, c) ∧
    (∀ s ∈ made.summaries, s.points < 99) ∧
    c.modifySaved 2 (fun s => { s with point := 99 }) = .ok c' ∧
    c'.execute = (.error (.uncaught .classCastException
      (some "LSleeper; cannot be cast to Ljava/io/Serializable;")), c'') := by
  refine of_misled ?_
  unfold misled suspended suspendableClass
  rw [mapM_draft disguises_made]
  decide +kernel

end Coroutine

end Resumption
