import Resumption.Machine.Coroutine
import Resumption.Proofs.Instrument.Keys
import Resumption.Proofs.Objects.Reading

/-!
# Coroutines that are reached by running

A coroutine is new on a machine that is ready, or was read from a snapshot there, and after that it
was executed any number of times (`Coroutine.Reached`). Its machine is a later one, and a sound one
if the ready machine was (`Coroutine.Reached.sound`); a ready machine is, if the code on it keeps a
discipline (`Machine.Sound.ready`).
-/

namespace Resumption

/-! ## Machines that are ready -/

/-- The natives that code with these settings can call. -/
def Settings.natives (settings : Settings) : List (MethodRef × Native) :=
  match settings.allocator with
  | .custom owner => Machine.allocatorNatives owner ++ Machine.standardNatives
  | .instruction => Machine.standardNatives

/-- In a table without repeated keys, what is listed is found. -/
theorem lookup_of_nodup {α β : Type} [BEq α] [LawfulBEq α] {table : List (α × β)}
    (hnodup : (table.map Prod.fst).Nodup) {e : α × β} (he : e ∈ table) :
    table.lookup e.1 = some e.2 := by
  induction table with
  | nil => cases he
  | cons first table ih =>
    obtain ⟨hfirst, hrest⟩ := List.nodup_cons.mp hnodup
    rcases List.mem_cons.mp he with rfl | he
    · simp [List.lookup]
    · have hne : e.1 ≠ first.1 := fun heq => hfirst (heq ▸ List.mem_map_of_mem he)
      rw [List.lookup, beq_false_of_ne hne]
      exact ih hrest he

namespace Machine

/-- The names of the methods of an allocator. -/
def allocatorNames : List MemberName :=
  [.allocateIntArray, .allocateLongArray, .allocateFloatArray, .allocateDoubleArray,
   .allocateObjectArray, .commit, .rollback]

theorem names_allocatorNatives (owner : ClassName) :
    (allocatorNatives owner).map (·.1.name) = allocatorNames := rfl

/-- The methods of the allocator are found. -/
theorem lookup_allocatorNatives {owner : ClassName} {e : MethodRef × Native}
    (he : e ∈ allocatorNatives owner) : (allocatorNatives owner).lookup e.1 = some e.2 := by
  refine lookup_of_nodup (.of_map MethodRef.name ?_) he
  rw [List.map_map]
  exact (by decide : allocatorNames.Nodup)

/-- No native of an allocator stands before a standard one. -/
theorem lookup_allocatorNatives_standard (owner : ClassName) {e : MethodRef × Native}
    (he : e ∈ standardNatives) : (allocatorNatives owner).lookup e.1 = none := by
  have hnames : ∀ e ∈ standardNatives, e.1.name ∉ allocatorNames := by decide
  rw [List.lookup_eq_none_iff]
  intro p hp
  refine bne_iff_ne.mpr fun heq => hnames e he ?_
  rw [heq, ← names_allocatorNatives owner]
  exact List.mem_map_of_mem (f := fun e => e.1.name) hp

/-- The methods that settings ask for are offered. -/
theorem provided_natives (settings : Settings) : Provided settings settings.natives := by
  have hstandard : ∀ e ∈ standardNatives, standardNatives.lookup e.1 = some e.2 := by decide
  rw [Settings.natives]
  cases hallocator : settings.allocator with
  | «instruction» =>
    refine ⟨hstandard, fun owner howner => ?_⟩
    rw [hallocator] at howner
    cases howner
  | custom owner =>
    refine ⟨fun e he => ?_, fun owner' howner e he => ?_⟩
    · rw [List.lookup_append, lookup_allocatorNatives_standard owner he]
      exact hstandard e he
    · rw [hallocator] at howner
      cases howner
      rw [List.lookup_append, lookup_allocatorNatives he]
      rfl

/-- One native makes method states. -/
theorem creates_natives (settings : Settings) {ref : MethodRef}
    (h : settings.natives.lookup ref = some .createState) :
    ref = Interface.MethodState.create := by
  have hstandard : ∀ e ∈ standardNatives, e.2 = .createState →
      e.1 = Interface.MethodState.create := by decide
  have hallocator : ∀ owner, ∀ e ∈ allocatorNatives owner, e.2 ≠ .createState := by
    intro owner e he
    simp only [allocatorNatives, List.map_cons, List.map_nil, List.cons_append, List.nil_append,
      List.mem_cons, List.not_mem_nil, or_false] at he
    rcases he with rfl | rfl | rfl | rfl | rfl | rfl | rfl <;> simp
  have hmem := Run.lookup_mem h
  rw [Settings.natives] at hmem
  cases hsettings : settings.allocator with
  | «instruction» =>
    rw [hsettings] at hmem
    exact hstandard _ hmem rfl
  | custom owner =>
    rw [hsettings] at hmem
    rcases List.mem_append.mp hmem with hmem | hmem
    · exact absurd rfl (hallocator owner _ hmem)
    · exact hstandard _ hmem rfl

/-- A machine on which nothing has run yet: classes are loaded, and the allocator that code with
these settings calls is provided. Calls may nest so deep, and activations take so many steps. -/
def ready (settings : Settings) (classes : List Class) (depth steps : Nat) : Machine :=
  let m := { classes.foldl load Machine.new with maxDepth := depth, maxSteps := steps }
  match settings.allocator with
  | .custom owner => m.provide (allocatorNatives owner)
  | .instruction => m

/-- The classes that are there once all were loaded; of two with one name the last. -/
def loaded (classes : List Class) : List Class := (classes.foldl load Machine.new).classes

theorem foldl_load (classes : List Class) (m : Machine) :
    classes.foldl load m = { m with classes := (classes.foldl load m).classes } := by
  induction classes generalizing m with
  | nil => rfl
  | cons c classes ih => exact ih (m.load c)

/-- A machine that is ready is a new one with classes and methods. -/
theorem ready_eq (settings : Settings) (classes : List Class) (depth steps : Nat) :
    ready settings classes depth steps = { Machine.new with
      classes := loaded classes, natives := settings.natives, maxDepth := depth
      maxSteps := steps } := by
  rw [ready, foldl_load, Settings.natives]
  cases settings.allocator <;> rfl

/-- No classes are loaded but those that are given. -/
theorem mem_of_mem_loaded {classes : List Class} {c : Class} (h : c ∈ loaded classes) :
    c ∈ classes := by
  have hload : ∀ (classes : List Class) (m : Machine), c ∈ (classes.foldl load m).classes →
      c ∈ m.classes ∨ c ∈ classes := by
    intro classes
    induction classes with
    | nil => exact fun _ h => .inl h
    | cons d classes ih =>
      intro m h
      rcases ih (m.load d) h with h | h
      · rcases List.mem_cons.mp h with rfl | h
        · exact .inr (List.mem_cons_self ..)
        · exact .inl (List.mem_of_mem_filter h)
      · exact .inr (List.mem_cons_of_mem _ h)
  exact (hload classes Machine.new h).resolve_left nofun

/-- **Ready machines are sound**, if the code that was loaded keeps the discipline. -/
theorem Sound.ready {D : Discipline} {settings : Settings} {classes : List Class} {depth steps : Nat}
    (hcode : ∀ c ∈ loaded classes, ∀ method ∈ c.methods, D.code c method) :
    (ready settings classes depth steps).Sound D := by
  rw [ready_eq]
  exact { Sound.new D with creates := fun _ h => creates_natives settings h, code := hcode }

end Machine

/-! ## Calls from outside -/

variable {D : Discipline} {N : List (MethodRef × Native)} {α : Type} {m : Machine}

namespace Run

variable {P : Prop}

/-- What a run leads to has only proceeded. -/
theorem Leads.proceeds {V : α → Prop} {x : Run α} (h : Leads D P V x m) :
    m.Proceeds (m.perform x).2 := by
  cases hx : x m <;> simp only [Leads, hx] at h <;> simp only [Machine.perform, hx] <;> exact h.1

/-- What a run leads to is sound. -/
theorem Leads.perform {V : α → Prop} {x : Run α} (h : Leads D P V x m) (hp : P) (hm : m.Sound D) :
    m.Precedes (m.perform x).2 ∧ (m.perform x).2.Sound D := by
  refine ⟨h.proceeds.toPrecedes, ?_⟩
  cases hx : x m with
  | ok a m' =>
    simp only [Leads, hx] at h
    simp only [Machine.perform, hx]
    exact (h.2 hp hm).1
  | error e m' =>
    simp only [Leads, hx] at h
    simp only [Machine.perform, hx]
    exact h.2 hp hm

/-- A call keeps the machine sound. -/
theorem invokeWithin_leads (hkept : D.Kept N) (hm : m.natives = N) (limit : Nat) (kind : CallKind)
    {ref : MethodRef} (hname : ref.name ≠ .create) {arguments : List Value}
    (hargs : NoTop arguments) : Leads D P Definite (invokeWithin limit kind ref arguments) m :=
  .get_bind (call_leads (runMethod_steady hkept _ _) hm kind ref (fun _ => hargs)
    fun _ heq => absurd (congrArg MethodRef.name heq) hname)

/-- Making an instance keeps the machine sound. -/
theorem construct_leads (hkept : D.Kept N) (hm : m.natives = N) (owner : ClassName) :
    Leads D P (fun _ => True) (construct owner) m := by
  have hname : MemberName.init ≠ .create := by decide
  refine .get_bind (.get_bind (.bind (ensureReady_leads (runMethod_steady hkept _ _) hm owner)
    fun _ m₁ hlater₁ => .bind newInstance_leads fun r m₂ hlater₂ => ?_))
  refine .bind (discard_leads (.get_bind (invokeWithin_leads hkept ?_ _ .special hname ?_))) fun _ _ _ =>
    .pure fun _ => trivial
  · exact hlater₂.natives.trans (hlater₁.natives.trans hm)
  · exact List.forall_mem_singleton.mpr nofun

end Run

/-! ## Coroutines -/

namespace Coroutine

variable {c c' : Coroutine}

theorem objectAt_ok {r : Ref} {o : HeapObject} (h : m.objectAt r = .ok o) :
    m.object? r = some o := by
  simp only [Machine.objectAt] at h
  split at h
  · rename_i ho
    cases h
    exact ho
  · cases h

theorem objectAt_of_some {r : Ref} {o : HeapObject} (h : m.object? r = some o) :
    m.objectAt r = .ok o := by
  simp only [Machine.objectAt, h]

/-- The state of a coroutine is in its continuation. -/
theorem state_ok_iff {k : Continuation Ref} :
    c.state = .ok k ↔ c.machine.object? c.continuation = some (.continuation k) := by
  constructor
  · intro h
    obtain ⟨o, ho, h⟩ := Except.bind_ok.mp h
    cases o with
    | continuation k' =>
      cases h
      exact objectAt_ok ho
    | _ => cases h
  · intro h
    rw [state, objectAt_of_some h]
    rfl

/-- A change of the continuation keeps the machine sound. -/
theorem setState_leads {k : Continuation Ref} (hc : c.state = .ok k) (k' : Continuation Ref)
    (hm : c.machine.Sound D) :
    c.machine.Precedes (c.setState k').machine ∧ (c.setState k').machine.Sound D := by
  have hevolves : ∀ o, c.machine.object? c.continuation = some o →
      o.Evolves (.continuation k') := by
    intro o ho
    rw [state_ok_iff.mp hc] at ho
    cases ho
    exact .continuation k k'
  exact ⟨.set hevolves, hm.set hevolves fun _ _ => .continuation k'⟩

/-- Making a coroutine keeps the machine sound. -/
theorem new_leads (hkept : D.Kept m.natives) (hm : m.Sound D) {owner : ClassName}
    (h : Coroutine.new m owner = .ok c) : m.Precedes c.machine ∧ c.machine.Sound D := by
  obtain ⟨hlater, hsound⟩ := (Run.construct_leads (P := True) hkept rfl owner).perform trivial hm
  simp only [Coroutine.new] at h
  split at h
  · cases h
  · rename_i heq
    rw [heq] at hlater hsound
    cases h
    exact ⟨hlater.trans (.alloc _ _), hsound.alloc (.continuation _) nofun nofun⟩

/-- Wrapping up keeps the machine sound. -/
theorem finish_leads (hm : c.machine.Sound D) :
    c.machine.Precedes c.finish.2.machine ∧ c.finish.2.machine.Sound D := by
  unfold finish
  split
  · exact ⟨.refl _, hm⟩
  · rename_i k hk
    split
    · exact ⟨.refl _, hm⟩
    · exact setState_leads hk _ hm

/-- However an execution ends. -/
theorem execute_leads (hkept : D.Kept c.machine.natives) (hm : c.machine.Sound D) :
    c.machine.Precedes c.execute.2.machine ∧ c.execute.2.machine.Sound D := by
  have hname : MemberName.run ≠ .create := by decide
  unfold execute executeWithin
  split
  · exact ⟨.refl _, hm⟩
  · rename_i k hk
    obtain ⟨hlater, hsound⟩ := setState_leads hk k.beginCycle hm
    simp only
    split
    · exact ⟨hlater, hsound⟩
    · rename_i owner fields _
      have hinvoke : Run.Leads D True Run.Definite (Run.invokeWithin c.machine.maxSteps .virtual
          (entryPoint owner) [.ref c.object, .ref c.continuation]) (c.setState k.beginCycle).machine :=
        Run.invokeWithin_leads hkept hlater.natives _ .virtual hname (by simp [Run.NoTop])
      obtain ⟨hlater', hsound'⟩ := hinvoke.perform trivial hsound
      split
      · rename_i heq
        rw [show (c.setState k.beginCycle).object = c.object from rfl,
          show (c.setState k.beginCycle).continuation = c.continuation from rfl] at heq
        rw [heq] at hlater' hsound'
        exact ⟨hlater.trans hlater', hsound'⟩
      · rename_i machine heq
        rw [show (c.setState k.beginCycle).object = c.object from rfl,
          show (c.setState k.beginCycle).continuation = c.continuation from rfl] at heq
        rw [heq] at hlater' hsound'
        obtain ⟨hlater'', hsound''⟩ := finish_leads
          (c := { c.setState k.beginCycle with machine }) hsound'
        exact ⟨(hlater.trans hlater').trans hlater'', hsound''⟩
    · exact ⟨hlater, hsound⟩

/-! ## Snapshots -/

/-- Making arrays of saved values keeps the machine sound. -/
theorem restoreArray_leads (hm : m.Sound D) (element : FieldType) {values : List Value}
    (hvalues : Run.NoTop values) :
    m.Precedes (restoreArray m element values).2 ∧ (restoreArray m element values).2.Sound D ∧
      (restoreArray m element values).1 ≠ .top := by
  unfold restoreArray
  split
  · exact ⟨.refl m, hm, nofun⟩
  · refine ⟨.alloc m _, hm.alloc (.array fun v hv => ?_) nofun nofun, nofun⟩
    exact hvalues v (List.mem_toArray.mp hv)

/-- Putting saved values together keeps the machine sound. -/
theorem restoreData_leads (hm : m.Sound D) {d : SavedData Value} (hd : Run.NoTop d.objects) :
    m.Precedes (restoreData m d).2 ∧ (restoreData m d).2.Sound D ∧ (restoreData m d).1 ≠ .top := by
  have hmap : ∀ {β : Type} (f : β → Value) (xs : List β), (∀ x, f x ≠ .top) →
      Run.NoTop (xs.map f) := by
    intro β f xs hf v hv
    obtain ⟨x, -, rfl⟩ := List.mem_map.mp hv
    exact hf x
  obtain ⟨hl₁, hs₁, hv₁⟩ := restoreArray_leads hm .int (hmap .int d.ints nofun)
  obtain ⟨hl₂, hs₂, hv₂⟩ := restoreArray_leads hs₁ .long (hmap .long d.longs nofun)
  obtain ⟨hl₃, hs₃, hv₃⟩ := restoreArray_leads hs₂ .float (hmap .float d.floats nofun)
  obtain ⟨hl₄, hs₄, hv₄⟩ := restoreArray_leads hs₃ .double (hmap .double d.doubles nofun)
  obtain ⟨hl₅, hs₅, hv₅⟩ := restoreArray_leads hs₄ (.object .object) hd
  have hvalue : (restoreData m d).1 ≠ .top := nofun
  refine ⟨(((((hl₁.trans hl₂).trans hl₃).trans hl₄).trans hl₅).trans (.alloc _ _)), ?_, hvalue⟩
  refine hs₅.alloc (.data ?_) nofun nofun
  exact List.forall_mem_cons.mpr ⟨hv₁, List.forall_mem_cons.mpr ⟨hv₂, List.forall_mem_cons.mpr
    ⟨hv₃, List.forall_mem_cons.mpr ⟨hv₄, List.forall_mem_singleton.mpr hv₅⟩⟩⟩⟩

/-- Making a saved state keeps the machine sound. -/
theorem restoreFrame_leads (hm : m.Sound D) {f : SavedFrame Value} (hkey : D.key f.key)
    (hf : ObjectFormat.Definite f) :
    m.Precedes (restoreFrame m f).2 ∧ (restoreFrame m f).2.Sound D := by
  have hs₁ := hm.alloc (o := .lockState ⟨f.monitors.filterMap Value.ref?⟩) (.lockState _) nofun nofun
  obtain ⟨hl₂, hs₂, hv₂⟩ := restoreData_leads hs₁ hf.1
  obtain ⟨hl₃, hs₃, hv₃⟩ := restoreData_leads hs₂ hf.2
  refine ⟨(((Machine.Precedes.alloc m _).trans hl₂).trans hl₃).trans (.alloc _ _), ?_⟩
  refine hs₃.alloc ⟨?_, nofun, fun s hs => ?_⟩ nofun nofun
  · exact List.forall_mem_cons.mpr ⟨nofun, List.forall_mem_cons.mpr
      ⟨hv₂, List.forall_mem_singleton.mpr hv₃⟩⟩
  · cases hs
    exact hkey

/-- Making saved states keeps the machine sound. -/
theorem restoreFrames_leads (hm : m.Sound D) {frames : List (SavedFrame Value)}
    (hframes : ∀ f ∈ frames, D.key f.key ∧ ObjectFormat.Definite f) :
    m.Precedes (restoreFrames m frames).2 ∧ (restoreFrames m frames).2.Sound D := by
  induction frames generalizing m with
  | nil => exact ⟨.refl m, hm⟩
  | cons f frames ih =>
    obtain ⟨⟨hkey, hf⟩, hrest⟩ := List.forall_mem_cons.mp hframes
    obtain ⟨hlater, hsound⟩ := restoreFrame_leads hm hkey hf
    obtain ⟨hlater', hsound'⟩ := ih hsound hrest
    exact ⟨hlater.trans hlater', hsound'⟩

/-- Without rules a frame is taken as it was written, if it can be loaded. -/
theorem resolveFrom_empty {loadable : FrameKey → Bool} {tried : List FrameKey}
    {frames : List (SavedFrame Value)} {f : SavedFrame Value}
    (h : SnapshotRules.empty.resolveFrom loadable tried frames = .ok f) :
    f ∈ frames ∧ loadable f.key = true := by
  induction frames generalizing tried with
  | nil => cases h
  | cons g frames ih =>
    simp only [SnapshotRules.resolveFrom, SnapshotRules.empty, SnapshotRules.search,
      SnapshotRules.update, List.contains_nil, List.find?_nil, bind, Except.bind,
      Bool.false_eq_true, if_false] at h
    by_cases hg : loadable g.key = true
    · simp only [hg, if_true] at h
      cases h
      exact ⟨List.mem_cons_self .., hg⟩
    · simp only [hg] at h
      obtain ⟨hmem, hloadable⟩ := ih h
      exact ⟨List.mem_cons_of_mem _ hmem, hloadable⟩

/-- What reading a coroutine comes to. -/
theorem deserialize_ok_iff {rules : SnapshotRules Value} {bytes : List UInt8} :
    deserialize m bytes rules = .ok c ↔ ∃ snapshot m₁ rest object frames,
      (m.alloc (.continuation .empty)).2.readSnapshot (m.alloc (.continuation .empty)).1 bytes =
        .ok (snapshot, m₁, rest) ∧ snapshot.payload = .ref object ∧
      rules.restore (isLoadable m₁.classes) snapshot = .ok frames ∧
      setSaved { machine := (restoreFrames m₁ frames).2, object
                 continuation := (m.alloc (.continuation .empty)).1 }
        (restoreFrames m₁ frames).1 = .ok c := by
  constructor
  · intro h
    obtain ⟨⟨snapshot, m₁, rest⟩, hread, h⟩ := Except.bind_ok.mp h
    simp only at h
    split at h
    · rename_i object hpayload
      obtain ⟨frames, hframes, h⟩ := Except.bind_ok.mp h
      exact ⟨snapshot, m₁, rest, object, frames, liftError_ok hread, hpayload,
        liftError_ok hframes, h⟩
    · cases h
  · rintro ⟨snapshot, m₁, rest, object, frames, hread, hpayload, hframes, h⟩
    refine Except.bind_ok.mpr ⟨(snapshot, m₁, rest), Flow.liftError_ok_iff.mpr hread, ?_⟩
    simp only [hpayload]
    exact Except.bind_ok.mpr ⟨frames, Flow.liftError_ok_iff.mpr hframes, h⟩

/-- Whatever is read. -/
theorem deserialize_leads (hm : m.Sound D) (hkey : ∀ k, isLoadable m.classes k = true → D.key k)
    {bytes : List UInt8} (h : deserialize m bytes .empty = .ok c) :
    m.Precedes c.machine ∧ c.machine.Sound D := by
  obtain ⟨snapshot, m₁, rest, object, frames, hread, -, hframes, hsaved⟩ := deserialize_ok_iff.mp h
  have hempty : (m.alloc (.continuation .empty)).2.Sound D :=
    hm.alloc (.continuation _) nofun nofun
  obtain ⟨hlater₁, hsound₁, hdefinite⟩ := ObjectFormat.readSnapshot_leads hempty hread
  have hlater : m.Precedes m₁ := (Machine.Precedes.alloc m _).trans hlater₁
  have hrestored : ∀ f ∈ frames, D.key f.key ∧ ObjectFormat.Definite f := by
    intro f hf
    obtain ⟨v, hv, hresolve⟩ := (mem_of_forall₂ (mapM_ok_iff.mp hframes)).2 f hf
    obtain ⟨hmem, hloadable⟩ := resolveFrom_empty hresolve
    exact ⟨hkey _ (hlater.classes ▸ hloadable), hdefinite v hv f hmem⟩
  obtain ⟨hlater₂, hsound₂⟩ := restoreFrames_leads hsound₁ hrestored
  obtain ⟨k, hk, hsaved⟩ := Except.bind_ok.mp hsaved
  cases hsaved
  obtain ⟨hlater₃, hsound₃⟩ := setState_leads hk (.ofSaved (restoreFrames m₁ frames).1) hsound₂
  exact ⟨(hlater.trans hlater₂).trans hlater₃, hsound₃⟩

/-- Coroutines that are reached on a machine: new ones, and ones that were read from a snapshot,
whatever its bytes, executed any number of times after that. -/
inductive Reached (m : Machine) : Coroutine → Prop
  /-- a new coroutine -/
  | new {owner : ClassName} {c : Coroutine} (h : Coroutine.new m owner = .ok c) : Reached m c
  /-- one that was read -/
  | read {bytes : List UInt8} {c : Coroutine} (h : deserialize m bytes .empty = .ok c) : Reached m c
  /-- after an execution -/
  | executed {c : Coroutine} (h : Reached m c) : Reached m c.execute.2

/-- **Soundness.** -/
theorem Reached.sound (hkept : D.Kept m.natives) (hm : m.Sound D)
    (hkey : ∀ k, isLoadable m.classes k = true → D.key k) (h : c.Reached m) :
    m.Precedes c.machine ∧ c.machine.Sound D := by
  induction h with
  | new h => exact new_leads hkept hm h
  | read h => exact deserialize_leads hm hkey h
  | executed h ih =>
    obtain ⟨hlater, hsound⟩ := ih
    obtain ⟨hlater', hsound'⟩ := execute_leads (hlater.natives ▸ hkept) hsound
    exact ⟨hlater.trans hlater', hsound'⟩

end Coroutine

end Resumption
