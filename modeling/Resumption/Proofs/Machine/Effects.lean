import Resumption.Instrument.Settings
import Resumption.Proofs.Machine.Cells
import Resumption.Proofs.Machine.Growth

/-!
# What generated code does to a machine

Generated code calls natives only, so what each call does to the machine is known exactly.

* **`Machine.Serves`** says that the natives are there.
* **`Machine.Adds`** says how little changes: new objects appear, and of the old ones only those
  listed change.
* The rest gives for each instruction that generated code uses one equation of `Body.straight`. An
  activation in them is a base with a stack and a number of instructions that it has moved on.
-/

namespace Resumption

namespace Machine

/-- Replaces an object. -/
def put (m : Machine) (r : Ref) (o : HeapObject) : Machine :=
  { m with heap := m.heap.setIfInBounds r.index o }

/-- A replaced object is found where one was, and other lookups do not change. -/
theorem object?_put (m : Machine) (r r' : Ref) (o : HeapObject) :
    (m.put r o).object? r' = if r' = r then (m.object? r).map (fun _ => o) else m.object? r' :=
  object?_set m r r' o

/-- The replacing object is found. -/
theorem object?_put_self {m : Machine} {r : Ref} {o o' : HeapObject} (h : m.object? r = some o) :
    (m.put r o').object? r = some o' := by
  rw [object?_put, if_pos rfl, h]
  rfl

/-- Replacing an object leaves the others. -/
theorem object?_put_of_ne {m : Machine} {r r' : Ref} {o : HeapObject} (h : r' ≠ r) :
    (m.put r o).object? r' = m.object? r' := by
  rw [object?_put, if_neg h]

/-- The string objects of literals hold those literals. -/
def Literate (m : Machine) : Prop :=
  ∀ s r, m.strings.lookup s = some r → m.object? r = some (.string s)

/-- Allocating keeps the objects of literals. -/
theorem Literate.alloc {m : Machine} (h : m.Literate) (o : HeapObject) : (m.alloc o).2.Literate :=
  fun s r hs => object?_alloc_of_some (h s r hs)

/-- Interning keeps the objects of literals and gives the object of its own. -/
theorem Literate.intern {m : Machine} (h : m.Literate) (s : String) :
    (m.intern s).2.Literate ∧ (m.intern s).2.object? (m.intern s).1 = some (.string s) := by
  cases hs : m.strings.lookup s with
  | some r =>
    rw [intern_of_some hs]
    exact ⟨h, h s r hs⟩
  | none =>
    have hself := object?_alloc_self m (.string s)
    rw [intern_of_none hs]
    refine ⟨fun s' r hs' => ?_, hself⟩
    rw [List.lookup_cons] at hs'
    split at hs'
    · rename_i heq
      cases hs'
      rw [eq_of_beq heq]
      exact hself
    · exact object?_alloc_of_some (h s' r hs')

/-- Strings never change. -/
theorem Literate.put {m : Machine} (h : m.Literate) {r : Ref} {o o' : HeapObject}
    (ho : m.object? r = some o) (hevolves : o.Evolves o') : (m.put r o').Literate := by
  intro s r' hs
  have hstring := h s r' hs
  by_cases hr : r' = r
  · subst hr
    rw [ho] at hstring
    cases hstring
    rw [object?_put_self ho, hevolves.of_string]
  · rw [object?_put_of_ne hr]
    exact hstring

/-- New objects appear, and of the old ones only those listed change. Nothing is rolled back. -/
structure Adds (changed : List Ref) (m m' : Machine) : Prop where
  /-- the machine has gone on -/
  later : m.Precedes m'
  /-- other objects are as they were -/
  objects : ∀ r o, r ∉ changed → m.object? r = some o → m'.object? r = some o
  /-- no monitor was entered or exited -/
  monitors : m'.monitors = m.monitors
  /-- no static field was written -/
  statics : m'.statics = m.statics
  /-- no value was recorded -/
  probes : m'.probes = m.probes
  /-- no monitors were recorded -/
  monitorProbes : m'.monitorProbes = m.monitorProbes
  /-- nothing was given up -/
  rollbacks : m'.pool.rollbacks = m.pool.rollbacks
  /-- literals are strings still -/
  literals : m.Literate → m'.Literate

namespace Adds

variable {changed : List Ref} {m m' m'' : Machine}

/-- A machine adds nothing to itself. -/
theorem refl (m : Machine) : m.Adds changed m :=
  ⟨.refl m, fun _ _ _ h => h, rfl, rfl, rfl, rfl, rfl, fun h => h⟩

/-- Two additions are one, with the same objects changed. -/
theorem trans (h : m.Adds changed m') (h' : m'.Adds changed m'') : m.Adds changed m'' where
  later := h.later.trans h'.later
  objects := fun r o hr ho => h'.objects r o hr (h.objects r o hr ho)
  monitors := h'.monitors.trans h.monitors
  statics := h'.statics.trans h.statics
  probes := h'.probes.trans h.probes
  monitorProbes := h'.monitorProbes.trans h.monitorProbes
  rollbacks := h'.rollbacks.trans h.rollbacks
  literals := fun hm => h'.literals (h.literals hm)

/-- More may change. -/
theorem mono {more : List Ref} (h : m.Adds changed m') (hmore : changed ⊆ more) :
    m.Adds more m' :=
  { h with objects := fun r o hr => h.objects r o fun hin => hr (hmore hin) }

/-- What changes no old object changes at most those listed. -/
theorem anything (h : m.Adds [] m') : m.Adds changed m' := h.mono (List.nil_subset _)

/-- An object that is not among those that change. -/
theorem same (h : m.Adds [] m') {r : Ref} {o : HeapObject} (ho : m.object? r = some o) :
    m'.object? r = some o :=
  h.objects r o (List.not_mem_nil) ho

/-- Allocating changes no old object. -/
theorem alloc (m : Machine) (o : HeapObject) : m.Adds [] (m.alloc o).2 :=
  ⟨.alloc m o, fun _ _ _ => object?_alloc_of_some, rfl, rfl, rfl, rfl, rfl, fun h => h.alloc o⟩

/-- Interning changes no old object. -/
theorem intern (m : Machine) (s : String) : m.Adds [] (m.intern s).2 := by
  cases hs : m.strings.lookup s with
  | some r =>
    rw [intern_of_some hs]
    exact .refl m
  | none =>
    have hlater := Precedes.intern m s
    have hliterals := fun h : m.Literate => (h.intern s).1
    rw [intern_of_none hs] at hlater hliterals ⊢
    exact ⟨hlater, fun _ _ _ => object?_alloc_of_some, rfl, rfl, rfl, rfl, rfl, hliterals⟩

/-- An object that was not there in the beginning may change. -/
theorem put_new (h : m.Adds changed m') {r : Ref} {o o' : HeapObject} (hnew : m.object? r = none)
    (ho : m'.object? r = some o) (hevolves : o.Evolves o') : m.Adds changed (m'.put r o') where
  later := h.later.trans (.set fun o'' ho'' => by
    rw [ho] at ho''
    cases ho''
    exact hevolves)
  objects := fun r' o'' hr' ho'' => by
    have hne : r' ≠ r := by
      rintro rfl
      rw [hnew] at ho''
      cases ho''
    rw [object?_put_of_ne hne]
    exact h.objects r' o'' hr' ho''
  monitors := h.monitors
  statics := h.statics
  probes := h.probes
  monitorProbes := h.monitorProbes
  rollbacks := h.rollbacks
  literals := fun hm => (h.literals hm).put ho hevolves

/-- An object that is listed may change. -/
theorem put (m : Machine) {r : Ref} {o o' : HeapObject} (ho : m.object? r = some o)
    (hevolves : o.Evolves o') : m.Adds [r] (m.put r o') where
  later := .set fun o'' ho'' => by
    rw [ho] at ho''
    cases ho''
    exact hevolves
  objects := fun r' o'' hr' ho'' => by
    rw [object?_put_of_ne (List.ne_of_not_mem_cons hr')]
    exact ho''
  monitors := rfl
  statics := rfl
  probes := rfl
  monitorProbes := rfl
  rollbacks := rfl
  literals := fun h => h.put ho hevolves

/-- Neither output nor what an allocator counts while saving matters. -/
theorem aside (m : Machine) (output : String) {pool : FramePool}
    (h : pool.rollbacks = m.pool.rollbacks) : m.Adds [] { m with output, pool } :=
  ⟨.of_heap_eq rfl rfl rfl rfl (fun _ h => h) rfl rfl, fun _ _ _ h => h, rfl, rfl, rfl, rfl, h,
    fun h => h⟩

end Adds

/-- Does the machine provide what code with these settings calls? What announcements are printed on
has to be initialized, which it is once there was one. -/
structure Serves (settings : Settings) (m : Machine) : Prop where
  /-- the methods of the runtime classes -/
  standard : ∀ e ∈ standardNatives, m.natives.lookup e.1 = some e.2
  /-- the methods of the allocator -/
  allocator : ∀ owner, settings.allocator = .custom owner → ∀ e ∈ allocatorNatives owner,
    m.natives.lookup e.1 = some e.2
  /-- the stream, if it is printed on -/
  printing : settings.announcement = .printed →
    m.class? .system = none ∨ ClassName.system ∈ m.initialized
  /-- literals are strings -/
  literals : m.Literate

/-- A later machine serves the settings too, if its literals are in place. -/
theorem Serves.later {settings : Settings} {m m' : Machine} (h : m.Serves settings)
    (hlater : m.Precedes m') (hliterals : m'.Literate) : m'.Serves settings where
  standard := by
    rw [hlater.natives]
    exact h.standard
  allocator := by
    rw [hlater.natives]
    exact h.allocator
  printing := fun hp => by
    rw [class?, hlater.classes]
    exact (h.printing hp).imp_right (hlater.initialized _)
  literals := hliterals

/-- Additions keep the natives in place. -/
theorem Serves.adds {settings : Settings} {changed : List Ref} {m m' : Machine}
    (h : m.Serves settings) (hadds : m.Adds changed m') : m'.Serves settings :=
  h.later hadds.later (hadds.literals h.literals)

end Machine

/-! ## Natives -/

namespace Run

variable {m : Machine} {r : Ref}

/-- Looking up an object that is there gives it and changes nothing. -/
theorem object_of_some {o : HeapObject} (h : m.object? r = some o) : object r m = .ok o m := by
  simp only [object, bind, EStateM.bind, get, getThe, MonadStateOf.get, EStateM.get, h]
  rfl

/-- Setting an object replaces it. -/
theorem setObject_eq (o : HeapObject) : setObject r o m = .ok () (m.put r o) := rfl

/-- A reference to a coroutine object is read as one. -/
theorem continuationAt_of_some {c : Continuation Ref} (h : m.object? r = some (.continuation c)) :
    continuationAt (.ref r) m = .ok (r, c) m := by
  simp only [continuationAt, referred, bind, EStateM.bind, pure, EStateM.pure, object_of_some h]

/-- A reference to a method state is read as one. -/
theorem methodStateAt_of_some {s : MethodState} (h : m.object? r = some (.methodState s)) :
    methodStateAt (.ref r) m = .ok s m := by
  simp only [methodStateAt, referred, bind, EStateM.bind, pure, EStateM.pure, object_of_some h]

/-- A reference to saved data is read as such. -/
theorem dataAt_of_some {d : DataArrays} (h : m.object? r = some (.data d)) :
    dataAt (.ref r) m = .ok d m := by
  simp only [dataAt, referred, bind, EStateM.bind, pure, EStateM.pure, object_of_some h]

/-- A reference to a list of monitors is read as one. -/
theorem lockStateAt_of_some {l : LockState Ref} (h : m.object? r = some (.lockState l)) :
    lockStateAt (.ref r) m = .ok (r, l) m := by
  simp only [lockStateAt, referred, bind, EStateM.bind, pure, EStateM.pure, object_of_some h]

/-- A reference to a string is read as one. -/
theorem stringAt_of_some {s : String} (h : m.object? r = some (.string s)) :
    stringAt r m = .ok s m := by
  simp only [stringAt, bind, EStateM.bind, pure, EStateM.pure, object_of_some h]

end Run

namespace Native

open Run

variable {m : Machine} {r : Ref}

/-- Asking for the mode gives the number of the mode. -/
theorem run_getMode {c : Continuation Ref} (h : m.object? r = some (.continuation c)) :
    run [.ref r] .getMode m = .ok (some (.int c.mode.toInt32)) m := by
  simp only [run, argument, bind, EStateM.bind, List.getElem?_cons_zero, pure, EStateM.pure,
    continuationAt_of_some h]

/-- Setting the mode changes the mode of the coroutine only. -/
theorem run_setMode {c : Continuation Ref} (h : m.object? r = some (.continuation c))
    (mode : Mode) :
    run [.ref r, .int mode.toInt32] .setMode m =
      .ok none (m.put r (.continuation { c with mode })) := by
  have hmode : Mode.ofInt32 mode.toInt32 = .ok mode := by cases mode <;> rfl
  simp only [run, intArgument, argument, bind, EStateM.bind, List.getElem?_cons_zero,
    List.getElem?_cons_succ, pure, EStateM.pure, hmode, liftContinuation,
    continuationAt_of_some h, setObject_eq]

/-- Taking the next state moves the coroutine on by one. -/
theorem run_loadNext {c : Continuation Ref} (h : m.object? r = some (.continuation c))
    {state : Ref} (hnext : c.saved[c.nextLoad]? = some state) :
    run [.ref r] .loadNext m = .ok (some (.ref state)) (m.put r (.continuation
      { c with nextUnload := some c.nextLoad, nextLoad := c.nextLoad + 1 })) := by
  simp only [run, argument, bind, EStateM.bind, List.getElem?_cons_zero, pure, EStateM.pure,
    continuationAt_of_some h, Continuation.loadNext, hnext, liftContinuation, setObject_eq]

/-- Pushing a state puts it on top of the saved ones. -/
theorem run_push {c : Continuation Ref} (h : m.object? r = some (.continuation c)) (state : Ref) :
    run [.ref r, .ref state] .push m = .ok none (m.put r (.continuation (c.push state))) := by
  simp only [run, argument, referred, bind, EStateM.bind, List.getElem?_cons_zero,
    List.getElem?_cons_succ, pure, EStateM.pure, continuationAt_of_some h, setObject_eq]

/-- A method state is made of exactly what was pushed for it. -/
theorem run_createState {owner : String} (h : m.object? r = some (.string owner))
    (id version point : Int32) (lockState locals stack : Value) :
    run [.ref r, .int id, .int version, .int point, lockState, locals, stack] .createState m =
      created (.methodState { owner, id, version, point, lockState, locals, stack }) m := by
  simp only [run, intArgument, argument, referred, bind, EStateM.bind, List.getElem?_cons_zero,
    List.getElem?_cons_succ, pure, EStateM.pure, stringAt_of_some h]

/-- The numbers of a method state are read back. -/
theorem run_stateNumber {s : MethodState} (h : m.object? r = some (.methodState s))
    (which : StateNumber) :
    run [.ref r] (.stateNumber which) m = .ok (some (.int (which.of s))) m := by
  simp only [run, argument, bind, EStateM.bind, List.getElem?_cons_zero, pure, EStateM.pure,
    methodStateAt_of_some h]

/-- The objects of a method state are read back. -/
theorem run_stateObject {s : MethodState} (h : m.object? r = some (.methodState s))
    (which : StateObject) :
    run [.ref r] (.stateObject which) m = .ok (some (which.of s)) m := by
  simp only [run, argument, bind, EStateM.bind, List.getElem?_cons_zero, pure, EStateM.pure,
    methodStateAt_of_some h]

/-- Saved data are made of the arrays that were pushed. -/
theorem run_createData (d : DataArrays) : run d.toList .createData m = created (.data d) m := by
  cases d
  rfl

/-- The array of a kind is read back. -/
theorem run_dataArray {d : DataArrays} (h : m.object? r = some (.data d)) (kind : ValueKind) :
    run [.ref r] (.dataArray kind) m = .ok (some (d.ofKind kind)) m := by
  simp only [run, argument, bind, EStateM.bind, List.getElem?_cons_zero, pure, EStateM.pure,
    dataAt_of_some h]

/-- The held monitors are copied to a new array. -/
theorem run_locksToArray {l : LockState Ref} (h : m.object? r = some (.lockState l)) :
    run [.ref r] .locksToArray m =
      created (.array (.array (.object .object)) (l.monitors.map Value.ref).toArray) m := by
  simp only [run, argument, bind, EStateM.bind, List.getElem?_cons_zero, pure, EStateM.pure,
    lockStateAt_of_some h]

/-- Printing adds a line to the output. -/
theorem run_println {stream : Value} {s : String} (h : m.object? r = some (.string s)) :
    run [stream, .ref r] .println m =
      .ok none { m with output := m.output ++ s ++ "\n" } := by
  have hrender : m.render (.ref r) = .ok s := by simp only [Machine.render, h]
  simp only [run, bind, EStateM.bind, List.getElem?_cons_zero, List.getElem?_cons_succ, get, getThe,
    MonadStateOf.get, EStateM.get, hrender, liftRun, pure, EStateM.pure]
  rfl

end Native

/-! ## Instructions -/

namespace Body

open Activation

section

variable {callees : Callees} {a : Activation} {s : List Value} {n : Nat} {m : Machine}
  {rest : List Instruction}

/-- A label does nothing. -/
theorem straight_label (l : Label) :
    straight callees (.label l :: rest) (a.moved s n) m =
      straight callees rest (a.moved s (n + 1)) m := rfl

/-- A load pushes the value of its slot, which must be there. -/
theorem straight_load {kind : ValueKind} {slot : Nat} {v : Value} (h : a.valueAt slot = v)
    (hv : v ≠ .top) :
    straight callees (.load kind slot :: rest) (a.moved s n) m =
      straight callees rest (a.moved (v :: s) (n + 1)) m := by
  rw [straight_cons (Step.execute_load callees (a.moved s n) m h hv)]
  rfl

/-- A store takes the value off the stack into its slot. -/
theorem straight_store {kind : ValueKind} {slot : Nat} {v : Value} :
    straight callees (.store kind slot :: rest) (a.moved (v :: s) n) m =
      straight callees rest ((a.store slot v).moved s (n + 1)) m := by
  rw [straight_cons (Step.execute_store callees (a.moved (v :: s) n) m rfl)]
  rfl

/-- An increment changes its slot only. -/
theorem straight_increment {slot : Nat} {i : Int32} {delta : Int16}
    (h : a.valueAt slot = .int i) :
    straight callees (.increment slot delta :: rest) (a.moved s n) m =
      straight callees rest ((a.store slot (.int (i + delta.toInt32))).moved s (n + 1)) m := by
  rw [straight_cons (Step.execute_increment callees (a.moved s n) m h)]
  rfl

theorem straight_pushNull :
    straight callees (.pushNull :: rest) (a.moved s n) m =
      straight callees rest (a.moved (.null :: s) (n + 1)) m := rfl

theorem straight_pushInt (i : Int32) :
    straight callees (.pushInt i :: rest) (a.moved s n) m =
      straight callees rest (a.moved (.int i :: s) (n + 1)) m := rfl

theorem straight_pushString (text : String) :
    straight callees (.pushConstant (.string text) :: rest) (a.moved s n) m =
      straight callees rest (a.moved (.ref (m.intern text).1 :: s) (n + 1)) (m.intern text).2 := rfl

theorem straight_pop {v : Value} (hv : v.width = 1) :
    straight callees (.stack .pop :: rest) (a.moved (v :: s) n) m =
      straight callees rest (a.moved s (n + 1)) m := by
  cases v with
  | long _ | double _ => cases hv
  | _ => rfl

theorem straight_pop2 {v : Value} (hv : v.width = 2) :
    straight callees (.stack .pop2 :: rest) (a.moved (v :: s) n) m =
      straight callees rest (a.moved s (n + 1)) m := by
  cases v with
  | long _ | double _ => rfl
  | _ => cases hv

theorem straight_dup {v : Value} (hv : v.width = 1) :
    straight callees (.stack .dup :: rest) (a.moved (v :: s) n) m =
      straight callees rest (a.moved (v :: v :: s) (n + 1)) m := by
  cases v with
  | long _ | double _ => cases hv
  | _ => rfl

/-- The position of an element, as code names it. -/
theorem position_ofNat {k length : Nat} (hk : k < length) (hcounts : k < 2 ^ 31) :
    Run.position (Int32.ofNat k) length m = .ok k m := by
  have hint : (Int32.ofNat k).toInt = k := Int32.toInt_ofNat_of_lt hcounts
  have hnonneg : (0 : Int32) ≤ Int32.ofNat k := by
    rw [Int32.le_iff_toInt_le, hint]
    exact Int.natCast_nonneg k
  have hlt : (k : Int) < length := by omega
  simp only [Run.position, hnonneg, hint, hlt, decide_true, Bool.and_self, if_true, Int.toNat_natCast,
    pure, EStateM.pure]

/-- Loading an element within bounds pushes it. -/
theorem straight_arrayLoad {element : ElementKind} {r : Ref} {type : RefType}
    {values : Array Value} {k : Nat} {v : Value} (h : m.object? r = some (.array type values))
    (hv : values[k]? = some v) (hcounts : k < 2 ^ 31) :
    straight callees (.arrayLoad element :: rest)
        (a.moved (.int (Int32.ofNat k) :: .ref r :: s) n) m =
      straight callees rest (a.moved (v :: s) (n + 1)) m := by
  obtain ⟨hk, hget⟩ := Array.getElem?_eq_some_iff.mp hv
  have helement : Run.arrayElement (some r) (Int32.ofNat k) m = .ok v m := by
    simp only [Run.arrayElement, Run.nonNull, Run.elements, bind, EStateM.bind, pure, EStateM.pure,
      Run.object_of_some h, position_ofNat hk hcounts, Array.getD_eq_getD_getElem?, hv,
      Option.getD_some]
  refine straight_cons (b := { a.moved s n with stack := v :: s }) ?_
  simp only [Step.execute, Step.andNext, Step.arrayLoad, Step.popInt, Step.popRef, Step.pop, bind,
    StateT.bind, get, getThe, MonadStateOf.get, StateT.get, EStateM.bind, EStateM.pure, pure,
    StateT.pure, set, MonadStateOf.set, StateT.set, liftM, monadLift, MonadLift.monadLift,
    StateT.lift, Step.push, modify, modifyGet, MonadStateOf.modifyGet, StateT.modifyGet, moved,
    helement]

/-- Storing an element within bounds replaces the array. -/
theorem straight_arrayStore {element : ElementKind} {r : Ref} {type : RefType}
    {values : Array Value} {k : Nat} {v : Value} (h : m.object? r = some (.array type values))
    (hk : k < values.size) (hsize : values.size ≤ 2 ^ 31) :
    straight callees (.arrayStore element :: rest)
        (a.moved (v :: .int (Int32.ofNat k) :: .ref r :: s) n) m =
      straight callees rest (a.moved s (n + 1))
        (m.put r (.array type (values.setIfInBounds k (Step.narrowed element v)))) := by
  have hset : Run.setArrayElement (some r) (Int32.ofNat k) (Step.narrowed element v) m =
      .ok () (m.put r (.array type (values.setIfInBounds k (Step.narrowed element v)))) := by
    simp only [Run.setArrayElement, Run.nonNull, Run.elements, bind, EStateM.bind, pure,
      EStateM.pure, Run.object_of_some h, position_ofNat hk (Nat.lt_of_lt_of_le hk hsize),
      Run.setObject_eq]
  refine straight_cons (b := { a.moved s n with stack := s }) ?_
  simp only [Step.execute, Step.andNext, Step.arrayStore, Step.popInt, Step.popRef, Step.pop, bind,
    StateT.bind, get, getThe, MonadStateOf.get, StateT.get, EStateM.bind, EStateM.pure, pure,
    StateT.pure, set, MonadStateOf.set, StateT.set, liftM, monadLift, MonadLift.monadLift,
    StateT.lift, moved, hset]

/-- An array of fewer than 2^31 elements is allocated with zeros. -/
theorem allocateArray_ofNat {element : FieldType} {k : Nat} (hk : k < 2 ^ 31) :
    Run.allocateArray (.array element) (Int32.ofNat k) m =
      Run.alloc (.array (.array element) (Array.replicate k (Value.zero element))) m := by
  have hint : (Int32.ofNat k).toInt = k := Int32.toInt_ofNat_of_lt hk
  have hnonneg : ¬ Int32.ofNat k < 0 := by
    rw [Int32.lt_iff_toInt_lt, hint]
    exact Int.not_lt.mpr (Int.natCast_nonneg k)
  rw [Run.allocateArray_of_nonneg hnonneg (RefType.element?_array element), hint,
    Int.toNat_natCast]

/-- An instruction that allocates an array whose length is on the stack. -/
theorem straight_allocate {i : Instruction} {element : FieldType} {k : Nat} {o : HeapObject}
    (ho : o = .array (.array element) (Array.replicate k (Value.zero element)))
    (hi : Step.execute callees i = Step.andNext do
      let count ← Step.popInt
      Step.push (.ref (← Run.allocateArray (.array element) count)))
    (hk : k < 2 ^ 31) :
    straight callees (i :: rest) (a.moved (.int (Int32.ofNat k) :: s) n) m =
      straight callees rest (a.moved (.ref (m.alloc o).1 :: s) (n + 1)) (m.alloc o).2 := by
  refine straight_cons (b := { a.moved s n with stack := .ref (m.alloc o).1 :: s }) ?_
  rw [hi]
  simp only [Step.andNext, Step.popInt, Step.pop, bind, StateT.bind, get, getThe, MonadStateOf.get,
    StateT.get, EStateM.bind, EStateM.pure, pure, StateT.pure, set, MonadStateOf.set, StateT.set,
    liftM, monadLift, MonadLift.monadLift, StateT.lift, Step.push, modify, modifyGet,
    MonadStateOf.modifyGet, StateT.modifyGet, moved, allocateArray_ofNat hk, Run.alloc,
    EStateM.modifyGet, ho]

/-- The length of an array is pushed. -/
theorem straight_arrayLength {r : Ref} {type : RefType} {values : Array Value}
    (h : m.object? r = some (.array type values)) :
    straight callees (.arrayLength :: rest) (a.moved (.ref r :: s) n) m =
      straight callees rest (a.moved (.int (Int32.ofNat values.size) :: s) (n + 1)) m := by
  have hlength : Run.arrayLength r m = .ok values.size m := by
    simp only [Run.arrayLength, Run.elements, bind, EStateM.bind, pure, EStateM.pure,
      Run.object_of_some h]
  refine straight_cons (b := { a.moved s n with stack := .int (Int32.ofNat values.size) :: s }) ?_
  simp only [Step.execute, Step.andNext, Step.popObject, Step.popRef, Step.pop, bind, StateT.bind,
    get, getThe, MonadStateOf.get, StateT.get, EStateM.bind, EStateM.pure, pure, StateT.pure, set,
    MonadStateOf.set, StateT.set, liftM, monadLift, MonadLift.monadLift, StateT.lift, Run.nonNull,
    Step.push, modify, modifyGet, MonadStateOf.modifyGet, StateT.modifyGet, moved, hlength]

/-- A cast that succeeds changes nothing. -/
theorem straight_checkCast {type : RefType} {v : Value} (h : Run.checkCast v type m = .ok () m) :
    straight callees (.checkCast type :: rest) (a.moved (v :: s) n) m =
      straight callees rest (a.moved (v :: s) (n + 1)) m := by
  refine straight_cons (b := { a.moved s n with stack := v :: s }) ?_
  simp only [Step.execute, Step.andNext, Step.pop, bind, StateT.bind, get, getThe, MonadStateOf.get,
    StateT.get, EStateM.bind, EStateM.pure, pure, StateT.pure, set, MonadStateOf.set, StateT.set,
    liftM, monadLift, MonadLift.monadLift, StateT.lift, Step.push, modify, modifyGet,
    MonadStateOf.modifyGet, StateT.modifyGet, moved, h]

/-- Entering a monitor records it. -/
theorem straight_monitorEnter {r : Ref} :
    straight callees (.monitorEnter :: rest) (a.moved (.ref r :: s) n) m =
      straight callees rest (a.moved s (n + 1)) { m with monitors := m.monitors.enter r } := rfl

/-- Exiting a monitor that is held takes it off. -/
theorem straight_monitorExit {r : Ref} {monitors : Monitors}
    (h : m.monitors.exit? r = some monitors) :
    straight callees (.monitorExit :: rest) (a.moved (.ref r :: s) n) m =
      straight callees rest (a.moved s (n + 1)) { m with monitors } := by
  have hexit : Run.exitMonitor r m = .ok () { m with monitors } := by
    simp only [Run.exitMonitor, bind, EStateM.bind, get, getThe, MonadStateOf.get, EStateM.get, h]
    rfl
  refine straight_cons (b := { a.moved s n with stack := s }) ?_
  simp only [Step.execute, Step.andNext, Step.popObject, Step.popRef, Step.pop, bind, StateT.bind,
    get, getThe, MonadStateOf.get, StateT.get, EStateM.bind, EStateM.pure, pure, StateT.pure, set,
    MonadStateOf.set, StateT.set, liftM, monadLift, MonadLift.monadLift, StateT.lift, Run.nonNull,
    moved, hexit]

end

section

variable {run : MethodRunner} {a : Activation} {s : List Value} {n : Nat} {m m' : Machine}
  {rest : List Instruction}

/-- A call that finds a native. -/
theorem straight_native {kind : CallKind} {ref : MethodRef} {native : Native}
    {arguments : List Value} {result : Option Value}
    {before after : List Value} (hfound : m.natives.lookup ref = some native)
    (hrun : native.run arguments m = .ok result m')
    (hcount : arguments.length =
      ref.descriptor.parameters.length + if kind = .static then 0 else 1)
    (hbefore : before = arguments.reverse ++ s) (hafter : after = result.toList ++ s) :
    straight (Run.callees run) (.invoke kind ref :: rest) (a.moved before n) m =
      straight (Run.callees run) rest (a.moved after (n + 1)) m' := by
  subst hbefore hafter
  rw [straight_cons (Step.execute_invoke_native (a.moved (arguments.reverse ++ s) n) m hfound rfl
    hcount hrun)]
  rfl

/-- A class that is not loaded, or initialized already, is ready. -/
theorem ensureReady_of_ready {name : ClassName}
    (h : m.class? name = none ∨ name ∈ m.initialized) : Run.ensureReady run name m = .ok () m := by
  simp only [Run.ensureReady, bind, EStateM.bind, get, getThe, MonadStateOf.get, EStateM.get,
    Run.prepare]
  by_cases hin : name ∈ m.initialized
  · rw [if_pos (List.contains_iff_mem.mpr hin)]
    rfl
  · rw [if_neg (fun hc => hin (List.contains_iff_mem.mp hc)), h.resolve_right hin]
    rfl

/-- A static field of an initialized class is read without running code. -/
theorem straight_getStatic {field : FieldRef}
    (h : m.class? field.owner = none ∨ field.owner ∈ m.initialized) :
    straight (Run.callees run) (.getStatic field :: rest) (a.moved s n) m =
      straight (Run.callees run) rest (a.moved
        ((m.statics.lookup (field.owner, field.name)).getD (Value.zero field.type) :: s)
        (n + 1)) m := by
  refine straight_cons (b := { a.moved s n with stack :=
    (m.statics.lookup (field.owner, field.name)).getD (Value.zero field.type) :: s }) ?_
  simp only [Step.execute, Step.andNext, bind, StateT.bind, get, getThe, MonadStateOf.get,
    EStateM.bind, EStateM.pure, pure, StateT.pure, liftM, monadLift,
    MonadLift.monadLift, StateT.lift, Step.push, modify, modifyGet, MonadStateOf.modifyGet,
    StateT.modifyGet, moved, Run.callees, ensureReady_of_ready h, Run.getStatic, EStateM.get]

end

end Body

end Resumption
