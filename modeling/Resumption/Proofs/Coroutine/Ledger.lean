import Resumption.Proofs.Coroutine.Reached
import Resumption.Proofs.Coroutine.Snapshots
import Resumption.Proofs.Instrument.Guarding
import Resumption.Proofs.Machine.Checked
import Resumption.Proofs.Objects.Counts

/-!
# Executions settle the frames that they save

Suspendable classes leave it to generated code to call their allocator and to hand method states over
(`Class.LeavesFrames`). Then executions of a coroutine settle what they allocate, one after the other:

* **On the way** nothing is pending, unless an activation is inside of code that saves a frame.
* **In the end** nothing is pending either, and there is one commit for each method state that was
  pushed, whether the execution suspended, returned or failed (`Coroutine.execute_settles`).

An execution that the machine gives up while a frame is saved leaves that frame as it is
(`Coroutine.GivenUp`).
-/

namespace Resumption

variable {settings : Settings} {allocator : ClassName}

/-! ## Code that leaves frames alone -/

/-- The methods by which frames are counted: those of an allocator, and the one that takes a method
state. -/
def Machine.countingMethods (allocator : ClassName) : List MethodRef :=
  Interface.Continuation.pushNewMethodState :: (allocatorNatives allocator).map Prod.fst

/-- No method of the class calls a method by which frames are counted. -/
def Class.LeavesFrames (allocator : ClassName) (c : Class) : Prop :=
  c.Calls (· ∉ Machine.countingMethods allocator)

/-- Was the class made suspendable, from code that leaves frames to generated code? -/
def Class.MadeToSave (settings : Settings) (allocator : ClassName) (c : Class) : Prop :=
  ∃ h written, written.isMarked = false ∧ written.LeavesFrames allocator ∧
    suspendableClass settings h written = .ok c

/-- Methods that do not belong to the allocator do not count. -/
theorem Settings.uncounted (hallocator : settings.allocator = .custom allocator) {ref : MethodRef}
    (h : ref ∉ Machine.countingMethods allocator) : Uncounted settings.natives ref := by
  intro native hnative
  have hstandard : ∀ e ∈ Machine.standardNatives, e.2.counted = true →
      e.1 = Interface.Continuation.pushNewMethodState := by decide
  have hmem := Run.lookup_mem hnative
  rw [Settings.natives, hallocator] at hmem
  rcases List.mem_append.mp hmem with hmem | hmem
  · exact absurd (List.mem_cons_of_mem _ (List.mem_map_of_mem (f := Prod.fst) hmem)) h
  · cases hcounted : native.counted with
    | false => rfl
    | true =>
      obtain rfl : ref = Interface.Continuation.pushNewMethodState := hstandard _ hmem hcounted
      exact absurd (List.mem_cons_self ..) h

/-- Methods with other names. -/
theorem Settings.uncounted_of_name (hallocator : settings.allocator = .custom allocator)
    {ref : MethodRef} (h : ref.name ∉ .pushNewMethodState :: Machine.allocatorNames) :
    Uncounted settings.natives ref := by
  refine settings.uncounted hallocator fun hmem => h ?_
  rcases List.mem_cons.mp hmem with rfl | hmem
  · exact List.mem_cons_self ..
  · obtain ⟨e, he, rfl⟩ := List.mem_map.mp hmem
    rw [← Machine.names_allocatorNatives allocator]
    exact List.mem_cons_of_mem _ (List.mem_map_of_mem (f := fun e => e.1.name) he)

/-- A ready machine is settled. -/
theorem Machine.Settled.ready (hallocator : settings.allocator = .custom allocator)
    {classes : List Class} (hclasses : ∀ d ∈ classes, d.MadeToSave settings allocator)
    (depth steps : Nat) :
    (Machine.ready settings classes depth steps).Settled settings.natives settings.SavesFrame := by
  have hsound : (Machine.ready settings classes depth steps).Sound
      (.guarded settings.natives settings.SavesFrame) := by
    refine .ready fun d hd method hmethod => ?_
    obtain ⟨h, written, hunmarked, hleaves, hmade⟩ := hclasses d (Machine.mem_of_mem_loaded hd)
    have hcalls : written.Calls (Uncounted settings.natives) := fun method hmethod code hcode =>
      (hleaves method hmethod code hcode).mono fun _ => settings.uncounted hallocator
    exact suspendableClass_guarded (Machine.provided_natives settings) hunmarked hcalls hmade method
      hmethod
  rw [Machine.ready_eq] at hsound ⊢
  exact ⟨rfl, hsound, rfl⟩

/-! ## Executions that are given up -/

/-- An activation that fits what the analysis says of its code has all its variables, so only the
steps can be used up. -/
theorem BrokenOff.of_describes {F : SaveCodes} {e : Abrupt} {events : List Event}
    (h : BrokenOff F e events) {body : Body} {b : Activation} {m : Machine}
    (hlast : events.getLast? = some (.step body b m)) {hierarchy : Hierarchy} {owner : ClassName}
    {name : MemberName} {d : MethodDescriptor} {isStatic : Bool} {code : Code} {a : Analysis}
    (hok : analyzeCode hierarchy owner name d isStatic code = .ok a)
    (hbody : Body.ofCode code = .ok body) (hb : a.Describes b) :
    ∃ limit, e = .failure (.stepLimit limit) := by
  cases h with
  | steps => exact ⟨_, rfl⟩
  | @empty _ _ _ _ kind slot hlast' _ hi hv =>
    cases hlast.symm.trans hlast'
    obtain ⟨f, hf, hfits⟩ := hb
    obtain ⟨i, after, hi', hstep⟩ := analyzeCode_steps hok hf
    rw [(Body.ofCode_inv hbody).1, hi'] at hi
    cases hi
    obtain ⟨t, ht, hload⟩ := Except.bind_ok.mp (show f.load kind slot = .ok after from hstep)
    split at hload
    · rename_i hkind
      exact absurd hv ((hfits.locals slot t (Frame.local?_ok.mp ht)).ne_top
        (Frame.holdsKind_ne_top hkind))
    · cases hload

/-! ## Executions -/

/-- Another method state in place of one. -/
theorem Machine.Sound.setMethodState {D : Discipline} {m : Machine} (h : m.Sound D) {r : Ref}
    {s s' : MethodState} (ho : m.object? r = some (.methodState s)) (hs : (HeapObject.methodState s').Sound D.key) :
    ({ m with heap := m.heap.setIfInBounds r.index (.methodState s') } : Machine).Sound D where
  interned := fun r' text => by
    rw [object?_set]
    by_cases hr : r' = r
    · subst hr
      rw [if_pos rfl, ← h.interned, ho]
      simp
    · rw [if_neg hr]
      exact h.interned r' text
  stream := fun r' => by
    rw [object?_set]
    by_cases hr : r' = r
    · subst hr
      rw [if_pos rfl, ← h.stream, ho]
      simp
    · rw [if_neg hr]
      exact h.stream r'
  objects := fun r' o' ho' => by
    rw [object?_set] at ho'
    split at ho'
    · rw [ho] at ho'
      cases ho'
      exact hs
    · exact h.objects r' o' ho'
  statics := h.statics
  creates := h.creates
  code := h.code

namespace Coroutine

variable {N : List (MethodRef × Native)} {F : SaveCodes} {c c' : Coroutine}

/-- What an execution calls. -/
def call (start : Coroutine) (owner : ClassName) : Logged (Option Value) :=
  Logged.invoke .virtual (entryPoint owner) [.ref start.object, .ref start.continuation]

/-- What happens in an execution. -/
def events (c : Coroutine) : List Event :=
  match c.state with
  | .error _ => []
  | .ok k =>
    let start := c.setState k.beginCycle
    match start.machine.objectAt start.object with
    | .ok (.instance owner _) => (start.call owner).events start.machine
    | _ => []

/-- Did the machine give the execution up while a frame was saved? -/
def GivenUp (F : SaveCodes) (c : Coroutine) : Prop :=
  ∃ e, c.execute.1 = .error e ∧ BrokenOff F (.failure e) c.events

/-- Nothing is pending on the way. -/
def Clear (F : SaveCodes) (events : List Event) : Prop :=
  ∀ body a m, .step body a m ∈ events → ¬ InFrame F body.instructions.toList a.index →
    m.pool.pending = 0

/-- Wrapping up leaves the allocator alone. -/
theorem finish_settled (hc : c.machine.Settled N F) :
    c.finish.2.machine.Settled N F ∧ c.finish.2.machine.pool = c.machine.pool := by
  have hpool : c.finish.2.machine.pool = c.machine.pool := by
    unfold finish
    split
    · rfl
    · split <;> rfl
  obtain ⟨hlater, hsound⟩ := finish_leads hc.sound
  exact ⟨⟨hlater.natives.trans hc.natives, hsound, hpool ▸ hc.pending⟩, hpool⟩

/-- An execution calls nothing, or `run` once the cycle has begun. -/
theorem execute_cases (c : Coroutine) :
    (c.events = [] ∧ (c.execute.2 = c ∨
      ∃ k, c.state = .ok k ∧ c.execute.2 = c.setState k.beginCycle)) ∨
    ∃ k owner, c.state = .ok k ∧
      let start := c.setState k.beginCycle
      c.events = (start.call owner).events start.machine ∧
      c.execute = match (start.call owner).run start.machine with
        | .ok _ machine => finish { start with machine }
        | .error e machine => (.error (machine.settle e), { start with machine }) := by
  cases hk : c.state with
  | error e => exact .inl ⟨by simp only [events, hk], .inl (by simp only [execute, executeWithin, hk])⟩
  | ok k =>
    have hidle : ∀ {x : Coroutine}, x = c.setState k.beginCycle →
        x = c ∨ ∃ k', (Except.ok k : Except RunError _) = .ok k' ∧ x = c.setState k'.beginCycle :=
      fun hx => .inr ⟨k, rfl, hx⟩
    cases ho : (c.setState k.beginCycle).machine.objectAt (c.setState k.beginCycle).object with
    | error e =>
      exact .inl ⟨by simp only [events, hk, ho], hidle (by simp only [execute, executeWithin, hk, ho])⟩
    | ok o =>
      cases o with
      | «instance» owner fields =>
        refine .inr ⟨k, owner, rfl, by simp only [events, hk, ho], ?_⟩
        simp only [call, Logged.invoke_run, execute, executeWithin, hk, ho, Machine.perform, Run.invoke,
          bind, EStateM.bind, get, getThe, MonadStateOf.get, EStateM.get]
        rw [show (c.setState k.beginCycle).machine.maxSteps = c.machine.maxSteps from rfl]
        cases Run.invokeWithin c.machine.maxSteps .virtual (entryPoint owner)
          [.ref (c.setState k.beginCycle).object, .ref (c.setState k.beginCycle).continuation]
          (c.setState k.beginCycle).machine <;> rfl
      | _ => exact .inl ⟨by simp only [events, hk, ho], hidle (by simp only [execute, executeWithin, hk, ho])⟩

/-- **One execution.** -/
theorem execute_settles (hF : F.Sound N) (hentry : ∀ owner, Uncounted N (entryPoint owner))
    (hc : c.machine.Settled N F) :
    Clear F c.events ∧ (¬ c.GivenUp F → c.execute.2.machine.Settled N F ∧
      c.execute.2.machine.pool.commits = c.machine.pool.commits + pushes c.events) := by
  have hbegun : ∀ {k}, c.state = .ok k → (c.setState k.beginCycle).machine.Settled N F := by
    intro k hk
    obtain ⟨hlater, hsound⟩ := setState_leads hk k.beginCycle hc.sound
    exact ⟨hlater.natives.trans hc.natives, hsound, hc.pending⟩
  rcases c.execute_cases with ⟨hevents, hidle⟩ | ⟨k, owner, hk, hevents, hexecute⟩
  · rw [hevents]
    refine ⟨fun _ _ _ hmem => absurd hmem List.not_mem_nil, fun _ => ?_⟩
    rcases hidle with hidle | ⟨k, hk, hidle⟩
    · rw [hidle]
      exact ⟨hc, rfl⟩
    · rw [hidle]
      exact ⟨hbegun hk, rfl⟩
  · have hstart := hbegun hk
    have hcommits : (c.setState k.beginCycle).machine.pool.commits = c.machine.pool.commits := rfl
    generalize c.setState k.beginCycle = start at *
    have hargs : Run.NoTop [.ref start.object, .ref start.continuation] := by simp [Run.NoTop]
    have hsettles : Logged.Settles N F (start.call owner) start.machine :=
      Logged.invoke_settles hF hstart .virtual hargs (hentry owner)
    have hname : MemberName.run ≠ .create := by decide
    have hkept : (Discipline.guarded N F).Kept N := Discipline.kept_of_keys fun _ => trivial
    have hleads : Run.Leads (.guarded N F) True Run.Definite (start.call owner).run start.machine := by
      rw [call, Logged.invoke_run]
      exact .get_bind (Run.invokeWithin_leads hkept hstart.natives _ .virtual hname hargs)
    obtain ⟨hlater, hsound⟩ := hleads.perform trivial hstart.sound
    rw [hevents, ← hcommits]
    refine ⟨hsettles.moments, fun hwhole => ?_⟩
    simp only [Machine.perform] at hlater hsound
    cases hrun : (start.call owner).run start.machine with
    | ok v m =>
      obtain ⟨hm, hadded⟩ := hsettles.returns v m hrun
      obtain ⟨hfinished, hpool⟩ := finish_settled (c := { start with machine := m }) hm
      simp only [hexecute, hrun, hpool]
      exact ⟨hfinished, hadded⟩
    | error e m =>
      simp only [hrun] at hlater hsound hexecute
      rw [hexecute]
      rcases hsettles.fails e m hrun with ⟨hpending, hadded⟩ | hbroken
      · exact ⟨⟨hlater.natives.trans hstart.natives, hsound, hpending⟩, hadded⟩
      · obtain ⟨f, rfl⟩ := hbroken.failed
        exact absurd ⟨f, by rw [hexecute]; rfl, hevents ▸ hbroken⟩ hwhole

/-! ## Sequences of executions -/

/-- Making arrays of saved values leaves the allocator alone. -/
theorem restoreArray_pool (m : Machine) (element : FieldType) (values : List Value) :
    (restoreArray m element values).2.pool = m.pool := by
  unfold restoreArray
  split <;> rfl

/-- Putting saved values together leaves the allocator alone. -/
theorem restoreData_pool (m : Machine) (d : SavedData Value) :
    (restoreData m d).2.pool = m.pool := by
  have halloc : ∀ (m : Machine) o, (m.alloc o).2.pool = m.pool := fun _ _ => rfl
  simp only [restoreData, halloc, restoreArray_pool]

/-- Making saved states leaves the allocator alone. -/
theorem restoreFrames_pool (m : Machine) (frames : List (SavedFrame Value)) :
    (restoreFrames m frames).2.pool = m.pool := by
  have halloc : ∀ (m : Machine) o, (m.alloc o).2.pool = m.pool := fun _ _ => rfl
  induction frames generalizing m with
  | nil => rfl
  | cons f frames ih => simp only [restoreFrames, ih, restoreFrame, halloc, restoreData_pool]

variable {m : Machine}

/-- Reading a coroutine saves no frames. -/
theorem deserialize_settled (hm : m.Settled N F) {bytes : List UInt8}
    (h : deserialize m bytes .empty = .ok c) : c.machine.Settled N F := by
  obtain ⟨hlater, hsound⟩ := deserialize_leads hm.sound (fun _ _ => trivial) h
  obtain ⟨snapshot, m₁, rest, object, frames, hread, -, -, hsaved⟩ := deserialize_ok_iff.mp h
  have hpool : c.machine.pool = m.pool := by
    obtain ⟨k, -, hsaved⟩ := Except.bind_ok.mp hsaved
    cases hsaved
    have hpool₁ : m₁.pool = m.pool :=
      ObjectFormat.readSnapshot_pool (m := (m.alloc (.continuation .empty)).2) hread
    exact (restoreFrames_pool m₁ frames).trans hpool₁
  exact ⟨hlater.natives.trans hm.natives, hsound, hpool ▸ hm.pending⟩

/-- Nor does a constructor that has returned leave anything pending. -/
theorem new_settled (hF : F.Sound N) (hinit : ∀ owner, Uncounted N ⟨owner, .init, ⟨[], none⟩⟩)
    (hm : m.Settled N F) {owner : ClassName} (h : Coroutine.new m owner = .ok c) :
    c.machine.Settled N F := by
  have hkept : (Discipline.guarded N F).Kept m.natives := Discipline.kept_of_keys fun _ => trivial
  obtain ⟨hlater, hsound⟩ := new_leads hkept hm.sound h
  have hsettles := Logged.construct_settles hF hm owner (hinit owner)
  refine ⟨hlater.natives.trans hm.natives, hsound, ?_⟩
  simp only [Coroutine.new, Machine.perform] at h
  cases hrun : Run.construct owner m with
  | ok r m' =>
    obtain ⟨hm', -⟩ := hsettles.returns r m' (by rw [Logged.construct_run, hrun])
    rw [hrun] at h
    cases h
    exact hm'.pending
  | error e m' =>
    rw [hrun] at h
    cases h

/-- A saved state was edited, in a way that leaves it a method state as code can make one. -/
theorem modifySaved_settled (hc : c.machine.Settled N F) {index : Nat} {f : MethodState → MethodState}
    (hf : ∀ s, (HeapObject.methodState s).Sound (fun _ => True) →
      (HeapObject.methodState (f s)).Sound fun _ => True)
    (h : c.modifySaved index f = .ok c') : c'.machine.Settled N F := by
  obtain ⟨⟨r, s⟩, hstate, h⟩ := Except.bind_ok.mp h
  cases h
  have ho : c.machine.object? r = some (.methodState s) := by
    obtain ⟨k, -, hstate⟩ := Except.bind_ok.mp hstate
    split at hstate
    · cases hstate
    · obtain ⟨o, ho, hstate⟩ := Except.bind_ok.mp hstate
      cases o with
      | methodState s' =>
        cases hstate
        exact objectAt_ok ho
      | _ => cases hstate
  exact ⟨hc.natives, hc.sound.setMethodState ho (hf s (hc.sound.objects r _ ho)), hc.pending⟩

/-- Coroutines on a machine of which no execution was given up while a frame was saved: new ones, and
ones that were read from a snapshot, executed any number of times after that. Saved states may be
edited in between. -/
inductive Intact (F : SaveCodes) (m : Machine) : Coroutine → Prop
  /-- a new coroutine -/
  | new {owner : ClassName} {c : Coroutine} (h : Coroutine.new m owner = .ok c) : Intact F m c
  /-- one that was read -/
  | read {bytes : List UInt8} {c : Coroutine} (h : deserialize m bytes .empty = .ok c) :
      Intact F m c
  /-- after an execution that is not given up in a save sequence -/
  | executed {c : Coroutine} (h : Intact F m c) (hwhole : ¬ c.GivenUp F) :
      Intact F m c.execute.2
  /-- with one saved state changed -/
  | edited {c c' : Coroutine} {index : Nat} {f : MethodState → MethodState} (h : Intact F m c)
      (hf : ∀ s, (HeapObject.methodState s).Sound (fun _ => True) →
        (HeapObject.methodState (f s)).Sound fun _ => True)
      (hedit : c.modifySaved index f = .ok c') : Intact F m c'

/-- **Sequences of executions.** -/
theorem Intact.settled (hF : F.Sound N) (hinit : ∀ owner, Uncounted N ⟨owner, .init, ⟨[], none⟩⟩)
    (hentry : ∀ owner, Uncounted N (entryPoint owner)) (hm : m.Settled N F) (h : c.Intact F m) :
    c.machine.Settled N F := by
  induction h with
  | new h => exact new_settled hF hinit hm h
  | read h => exact deserialize_settled hm h
  | executed _ hwhole ih => exact ((execute_settles hF hentry ih).2 hwhole).1
  | edited _ hf hedit ih => exact modifySaved_settled ih hf hedit

/-- **Every frame is settled.** Classes were made suspendable with an allocator, from code that
leaves it to generated code to call the allocator and to hand method states over. Then nothing is
pending while a coroutine is made, unless an activation is inside of code that saves a frame, nor in
any of its executions. Between executions nothing is pending at all, and each execution commits as
often as a method state was pushed in it, however it ends, unless the machine gave it up in the middle
of saving a frame. -/
theorem execute_accounts (hallocator : settings.allocator = .custom allocator)
    {classes : List Class} (hclasses : ∀ d ∈ classes, d.MadeToSave settings allocator)
    (depth steps : Nat) :
    (∀ owner, Clear settings.SavesFrame
      ((Logged.construct owner).events (.ready settings classes depth steps))) ∧
    ∀ c : Coroutine, c.Intact settings.SavesFrame (.ready settings classes depth steps) →
      c.machine.pool.pending = 0 ∧ Clear settings.SavesFrame c.events ∧
      (¬ c.GivenUp settings.SavesFrame →
        c.execute.2.machine.pool.pending = 0 ∧
        c.execute.2.machine.pool.commits = c.machine.pool.commits + pushes c.events) := by
  have hF := settings.savesFrame_sound (Machine.provided_natives settings) hallocator
  have hready := Machine.Settled.ready hallocator hclasses depth steps
  have hnames : MemberName.init ∉ .pushNewMethodState :: Machine.allocatorNames ∧
      MemberName.run ∉ .pushNewMethodState :: Machine.allocatorNames := by decide
  have hinit : ∀ owner, Uncounted settings.natives ⟨owner, .init, ⟨[], none⟩⟩ := fun _ =>
    settings.uncounted_of_name hallocator hnames.1
  have hentry : ∀ owner, Uncounted settings.natives (entryPoint owner) := fun _ =>
    settings.uncounted_of_name hallocator hnames.2
  refine ⟨fun owner => (Logged.construct_settles hF hready owner (hinit owner)).moments,
    fun c hc => ?_⟩
  have hsettled := hc.settled hF hinit hentry hready
  obtain ⟨hclear, hends⟩ := execute_settles hF hentry hsettled
  exact ⟨hsettled.pending, hclear, fun hwhole =>
    ⟨(hends hwhole).1.pending, (hends hwhole).2⟩⟩

/-! ## Code that saves its frame, code that forges one, and code that loses a variable -/

namespace Counting

open Waiting

/-- The class that generated code asks for its arrays. -/
def bank : ClassName := { text := "Bank" }

/-- Generated code takes its arrays from an allocator. -/
def counting : Settings := { Settings.standard with allocator := .custom bank }

/-- The name that two fields have in common. -/
def count : MemberName := { text := "count" }

/-- Has two fields of one name, of which the machine keeps one value. What it stores as a number is
wide and takes the place of another variable. -/
def mixes : Class :=
  { classOf sleeper [.pushInt 1, .store .int 3, .load .object 0, .pushLong 1,
      .putField ⟨sleeper, count, .long⟩, .load .object 0, .getField ⟨sleeper, count, .int⟩,
      .store .int 2] with
    fields := [⟨count, .long, 0⟩, ⟨count, .int, 0⟩] }

/-- A coroutine of the class, on a machine with the class made suspendable. -/
def fresh (written : Class) : Option (Class × Coroutine) := do
  let made ← (suspendableClass counting Library.hierarchy written).toOption
  let c ← (Coroutine.new (.ready counting [made] 9 1000) sleeper).toOption
  return (made, c)

/-- What comes of its first execution: whether it suspended, the counts before and after it, and how
many method states were pushed in it. -/
def tally (written : Class) : Option (Bool × FramePool × FramePool × Nat) := do
  let (_, c) ← fresh written
  let (result, c') := c.execute
  return (result.toOption = some true, c.machine.pool, c'.machine.pool, pushes c.events)

/-- From the numbers back to the coroutine. -/
theorem of_tally {written : Class} {suspends : Bool} {before after : FramePool} {pushed : Nat}
    (h : tally written = some (suspends, before, after, pushed)) : ∃ (made : Class) (c : Coroutine),
      suspendableClass counting Library.hierarchy written = .ok made ∧
      Coroutine.new (.ready counting [made] 9 1000) sleeper = .ok c ∧
      decide (c.execute.1.toOption = some true) = suspends ∧ c.machine.pool = before ∧
      c.execute.2.machine.pool = after ∧ pushes c.events = pushed := by
  obtain ⟨⟨made, c⟩, hfresh, h⟩ := Option.bind_eq_some_iff.mp h
  cases h
  obtain ⟨made', hmade, hfresh⟩ := Option.bind_eq_some_iff.mp hfresh
  obtain ⟨c', hnew, hfresh⟩ := Option.bind_eq_some_iff.mp hfresh
  cases hfresh
  have hok : ∀ {ε α : Type} {x : Except ε α} {a : α}, x.toOption = some a → x = .ok a := by
    intro ε α x a hx
    cases x with
    | error e => cases hx
    | ok b =>
      cases hx
      rfl
  exact ⟨made, c, hok hmade, hok hnew, rfl, rfl, rfl, rfl⟩

/-- The calls of a class with one method. -/
theorem calls_classOf {R : MethodRef → Prop} [DecidablePred R] {written : Class} {code : Code}
    (hmethods : ∀ method ∈ written.methods, method.code = some code)
    (hcode : code.instructions.toList.all (fun i => i.callee?.all (decide <| R ·)) = true) :
    written.Calls R := by
  intro method hmethod code' hcode' i hi ref href
  cases (hmethods method hmethod).symm.trans hcode'
  have hall := List.all_eq_true.mp hcode i hi
  rw [href] at hall
  exact of_decide_eq_true hall

end Counting

open Counting Waiting in
/-- One frame is saved, and there is one commit. -/
theorem execute_accounts_remembers : ∃ (made : Class) (c : Coroutine),
    made.MadeToSave counting bank ∧ c.Intact counting.SavesFrame (.ready counting [made] 9 1000) ∧
      ¬ c.GivenUp counting.SavesFrame ∧ c.execute.1.toOption = some true ∧ pushes c.events = 1 ∧
      c.execute.2.machine.pool.pending = 0 ∧
      c.execute.2.machine.pool.commits = c.machine.pool.commits + 1 := by
  have hruns : tally remembers = some (true, ⟨0, 0, 0⟩, ⟨0, 1, 0⟩, 1) := by
    unfold tally fresh suspendableClass makeSuspendable MethodPlan.generate
    simp only [withMetadata_eq]
    decide +kernel
  obtain ⟨made, c, hmade, hnew, hsuspends, -, -, hpushes⟩ := of_tally hruns
  have hsuspends : c.execute.1.toOption = some true := of_decide_eq_true hsuspends
  have hsaves : made.MadeToSave counting bank :=
    ⟨Library.hierarchy, remembers, by decide,
      calls_classOf (fun method hmethod => by cases List.mem_singleton.mp hmethod; rfl) (by decide),
      hmade⟩
  have hwhole : ¬ c.GivenUp counting.SavesFrame := by
    rintro ⟨e, he, -⟩
    rw [he] at hsuspends
    cases hsuspends
  have hintact : c.Intact counting.SavesFrame (.ready counting [made] 9 1000) := .new hnew
  have hallocator : counting.allocator = .custom bank := rfl
  obtain ⟨-, hall⟩ := execute_accounts hallocator (List.forall_mem_singleton.mpr hsaves) 9 1000
  obtain ⟨-, -, hends⟩ := hall c hintact
  obtain ⟨hpending, hcommits⟩ := hends hwhole
  exact ⟨made, c, hsaves, hintact, hwhole, hsuspends, hpushes, hpending, hpushes ▸ hcommits⟩

open Counting Waiting in
/-- A method state that the code makes and hands over itself is not committed. And an execution that
is given up while a frame is saved leaves what was allocated for it. -/
theorem execute_accounts_forges : (∃ (made : Class) (c : Coroutine),
    suspendableClass counting Library.hierarchy forges = .ok made ∧
      forges.Calls (· ∉ (Machine.allocatorNatives bank).map Prod.fst) ∧
      Coroutine.new (.ready counting [made] 9 1000) sleeper = .ok c ∧
      c.execute.1.toOption = some true ∧
      c.execute.2.machine.pool.commits ≠ c.machine.pool.commits + pushes c.events) ∧
    ∃ (made : Class) (c : Coroutine), suspendableClass counting Library.hierarchy mixes = .ok made ∧
      mixes.Calls (· ∉ (Machine.allocatorNatives bank).map Prod.fst) ∧
      Coroutine.new (.ready counting [made] 9 1000) sleeper = .ok c ∧
      c.execute.2.machine.pool.pending = 1 := by
  have hforges : tally forges = some (true, ⟨0, 0, 0⟩, ⟨0, 1, 0⟩, 2) := by
    unfold tally fresh suspendableClass makeSuspendable MethodPlan.generate
    simp only [withMetadata_eq]
    decide +kernel
  have hmixes : tally mixes = some (false, ⟨0, 0, 0⟩, ⟨1, 0, 0⟩, 0) := by
    unfold tally fresh suspendableClass makeSuspendable MethodPlan.generate
    simp only [withMetadata_eq]
    decide +kernel
  refine ⟨?_, ?_⟩
  · obtain ⟨made, c, hmade, hnew, hsuspends, hbefore, hafter, hpushes⟩ := of_tally hforges
    have hcalls : forges.Calls (· ∉ (Machine.allocatorNatives bank).map Prod.fst) :=
      calls_classOf (fun method hmethod => by cases List.mem_singleton.mp hmethod; rfl) (by decide)
    refine ⟨made, c, hmade, hcalls, hnew, of_decide_eq_true hsuspends, ?_⟩
    rw [hbefore, hafter, hpushes]
    decide
  · obtain ⟨made, c, hmade, hnew, -, -, hafter, -⟩ := of_tally hmixes
    have hcalls : mixes.Calls (· ∉ (Machine.allocatorNatives bank).map Prod.fst) :=
      calls_classOf (fun method hmethod => by cases List.mem_singleton.mp hmethod; rfl) (by decide)
    exact ⟨made, c, hmade, hcalls, hnew, congrArg FramePool.pending hafter⟩

end Coroutine

end Resumption
