import Resumption.Proofs.Instrument.Conformance
import Resumption.Proofs.Instrument.Shape

/-!
# Saving

What the blocks of a save sequence do. Each is a straight run; what it adds to the machine is new,
so everything that was on the heap before stays as it was.

* **`straight_announce`**: announcements change nothing that matters.
* **`straight_buildArray`** and **`straight_buildData`**: the values of each kind are in an array of
  their own, in order (`Machine.HoldsData`).
* **`straight_pushState`**: the method state is on the heap and handed over (`Machine.Recorded`).
-/

namespace Resumption

/-- Is the object a continuation? -/
def HeapObject.isContinuation : HeapObject → Bool
  | .continuation _ => true
  | _ => false

namespace Machine

/-- Is this the array with these elements, or null if there are none? -/
def HoldsArray (m : Machine) (v : Value) (elements : List Value) : Prop :=
  (elements = [] ∧ v = .null) ∨
    ∃ r type, elements ≠ [] ∧ v = .ref r ∧ m.object? r = some (.array type elements.toArray)

/-- Is this the object that holds the saved values, kind by kind? -/
def HoldsData (m : Machine) (v : Value) (values : List SavedValue) (value : SavedValue → Value) :
    Prop :=
  ∃ r d, v = .ref r ∧ m.object? r = some (.data d) ∧
    ∀ kind, m.HoldsArray (d.ofKind kind) ((values.filter (·.kind = kind)).map value)

/-- Every object but one is what it was. -/
def SameBut (r : Ref) (m m' : Machine) : Prop :=
  ∀ r' o, r' ≠ r → m.object? r' = some o → m'.object? r' = some o

theorem Adds.sameBut {m m' : Machine} {r : Ref} (h : m.Adds [r] m') : m.SameBut r m' :=
  fun r' o hr' => h.objects r' o (by simpa using hr')

/-- An object of another kind is not the continuation, so that may change. -/
theorem SameBut.other {m m' : Machine} {r r' : Ref} {c : Continuation Ref} {o : HeapObject}
    (h : m.SameBut r m') (hc : m.object? r = some (.continuation c)) (ho : m.object? r' = some o)
    (hother : o.isContinuation = false) : m'.object? r' = some o := by
  refine h r' o ?_ ho
  rintro rfl
  rw [hc] at ho
  cases ho
  cases hother

section

variable {m m' : Machine} {v : Value} {r : Ref} {c : Continuation Ref}

/-- Saved values are not in the continuation itself, so it may change. -/
theorem HoldsArray.sameBut {elements : List Value} (h : m.HoldsArray v elements)
    (hc : m.object? r = some (.continuation c)) (hsame : m.SameBut r m') :
    m'.HoldsArray v elements := by
  rcases h with h | ⟨r', type, hne, hv, ho⟩
  · exact .inl h
  · exact .inr ⟨r', type, hne, hv, hsame.other hc ho rfl⟩

theorem HoldsData.sameBut {values : List SavedValue} {value : SavedValue → Value}
    (h : m.HoldsData v values value) (hc : m.object? r = some (.continuation c))
    (hsame : m.SameBut r m') : m'.HoldsData v values value := by
  obtain ⟨r', d, hv, ho, harrays⟩ := h
  exact ⟨r', d, hv, hsame.other hc ho rfl, fun kind => (harrays kind).sameBut hc hsame⟩

theorem HoldsArray.adds {elements : List Value} (h : m.HoldsArray v elements)
    (hadds : m.Adds [] m') : m'.HoldsArray v elements := by
  rcases h with h | ⟨r, type, hne, hv, ho⟩
  · exact .inl h
  · exact .inr ⟨r, type, hne, hv, hadds.same ho⟩

theorem HoldsData.adds {values : List SavedValue} {value : SavedValue → Value}
    (h : m.HoldsData v values value) (hadds : m.Adds [] m') : m'.HoldsData v values value := by
  obtain ⟨r, d, hv, ho, harrays⟩ := h
  exact ⟨r, d, hv, hadds.same ho, fun kind => (harrays kind).adds hadds⟩

end

end Machine

namespace Body

variable {run : MethodRunner} {settings : Settings} {a : Activation} {s : List Value} {n : Nat}
  {m : Machine} {rest : List Instruction} {r : Ref}

/-! ## Calls of natives -/

theorem straight_getMode (hserves : m.Serves settings) {c : Continuation Ref}
    (h : m.object? r = some (.continuation c)) :
    straight (Run.callees run) (callVirtual Interface.Continuation.getMode :: rest)
        (a.moved (.ref r :: s) n) m =
      straight (Run.callees run) rest (a.moved (.int c.mode.toInt32 :: s) (n + 1)) m :=
  straight_native (s := s) (hserves.standard (_, .getMode) (by decide))
    (Native.run_getMode h) rfl rfl rfl

theorem straight_setMode (hserves : m.Serves settings) {c : Continuation Ref}
    (h : m.object? r = some (.continuation c)) (mode : Mode) :
    straight (Run.callees run) (callVirtual Interface.Continuation.setMode :: rest)
        (a.moved (.int mode.toInt32 :: .ref r :: s) n) m =
      straight (Run.callees run) rest (a.moved s (n + 1))
        (m.put r (.continuation { c with mode })) :=
  straight_native (s := s) (hserves.standard (_, .setMode) (by decide))
    (Native.run_setMode h mode) rfl rfl rfl

theorem straight_println (hserves : m.Serves settings) {stream : Value} {text : String}
    (h : m.object? r = some (.string text)) :
    straight (Run.callees run) (callVirtual Interface.Print.println :: rest)
        (a.moved (.ref r :: stream :: s) n) m =
      straight (Run.callees run) rest (a.moved s (n + 1))
        { m with output := m.output ++ text ++ "\n" } :=
  straight_native (s := s) (hserves.standard (_, .println) (by decide))
    (Native.run_println h) rfl rfl rfl

theorem straight_pushNewState (hserves : m.Serves settings) {c : Continuation Ref}
    (h : m.object? r = some (.continuation c)) (state : Ref) :
    straight (Run.callees run) (callVirtual Interface.Continuation.pushNewMethodState :: rest)
        (a.moved (.ref state :: .ref r :: s) n) m =
      straight (Run.callees run) rest (a.moved s (n + 1))
        (m.put r (.continuation (c.push state))) :=
  straight_native (s := s) (hserves.standard (_, .push) (by decide))
    (Native.run_push h state) rfl rfl rfl

theorem straight_createData (hserves : m.Serves settings) (d : DataArrays) :
    straight (Run.callees run) (callStatic Interface.Data.create :: rest)
        (a.moved (d.toList.reverse ++ s) n) m =
      straight (Run.callees run) rest (a.moved (.ref (m.alloc (.data d)).1 :: s) (n + 1))
        (m.alloc (.data d)).2 :=
  straight_native (s := s) (hserves.standard (_, .createData) (by decide))
    (Native.run_createData d) rfl rfl rfl

theorem straight_createState (hserves : m.Serves settings) {owner : String}
    (h : m.object? r = some (.string owner)) (id version point : Int32)
    (lockState locals stack : Value) :
    straight (Run.callees run) (callStatic Interface.MethodState.create :: rest)
        (a.moved (stack :: locals :: lockState :: .int point :: .int version :: .int id :: .ref r ::
          s) n) m =
      straight (Run.callees run) rest
        (a.moved (.ref (m.alloc (.methodState
          { owner, id, version, point, lockState, locals, stack })).1 :: s) (n + 1))
        (m.alloc (.methodState { owner, id, version, point, lockState, locals, stack })).2 :=
  straight_native (s := s) (hserves.standard (_, .createState) (by decide))
    (Native.run_createState h id version point lockState locals stack) rfl rfl rfl

theorem straight_allocator (hserves : m.Serves settings) {owner : ClassName}
    (howner : settings.allocator = .custom owner) {kind : ValueKind} {k : Nat} {o : HeapObject}
    (ho : o = .array kind.arrayType (Array.replicate k (Value.zero kind.elementType)))
    (hk : k < 2 ^ 31) :
    straight (Run.callees run) (callStatic (Interface.allocator owner kind.elementType) :: rest)
        (a.moved (.int (Int32.ofNat k) :: s) n) m =
      straight (Run.callees run) rest (a.moved (.ref (m.alloc o).1 :: s) (n + 1))
        { (m.alloc o).2 with pool := { m.pool with pending := m.pool.pending + 1 } } := by
  have hrun : Native.run [.int (Int32.ofNat k)] (.allocate kind.elementType) m =
      .ok (some (.ref (m.alloc o).1))
        { (m.alloc o).2 with pool := { m.pool with pending := m.pool.pending + 1 } } := by
    simp only [Native.run, Run.intArgument, Run.argument, bind, EStateM.bind,
      List.getElem?_cons_zero, pure, EStateM.pure, allocateArray_ofNat hk, ho]
    rfl
  have hfound : m.natives.lookup (Interface.allocator owner kind.elementType) =
      some (.allocate kind.elementType) := by
    refine hserves.allocator owner howner (_, .allocate kind.elementType)
      (List.mem_append_left _ (List.mem_map_of_mem ?_))
    cases kind <;> decide
  refine straight_native (s := s) hfound hrun ?_ rfl rfl
  cases kind <;> rfl

/-! ## Announcements -/

variable {l : Layout} (run) (a) (s) (n)

/-- Announcements print a line at most. -/
theorem straight_announce (hserves : m.Serves l.settings) (what : String) :
    ∃ m', straight (Run.callees run) (l.announce what) (a.moved s n) m =
        .ok (a.moved s (n + (l.announce what).length)) m' ∧ m.Adds [] m' := by
  simp only [Layout.announce]
  cases hannounce : l.settings.announcement with
  | silent => exact ⟨m, rfl, .refl m⟩
  | constant => exact ⟨_, rfl, .intern m _⟩
  | printed =>
    generalize s!"{l.location}: {what}" = text
    have hintern := Machine.Adds.intern m text
    have hstring := (hserves.literals.intern text).2
    have hready : m.class? Interface.Print.out.owner = none ∨
        Interface.Print.out.owner ∈ m.initialized := hserves.printing hannounce
    rw [straight_getStatic hready, straight_pushString,
      straight_println (hserves.adds hintern) hstring]
    exact ⟨_, rfl, hintern.trans (.aside _ _ rfl)⟩

/-! ## Arrays of saved values -/

/-- Storing values into an array that was made after `start`, from position `k` on. -/
theorem straight_saveElements {start : Machine} {kind : ValueKind} {type : RefType}
    (items : List SavedValue) (k : Nat) (stored : List Value) {zeros : List Value}
    (hkinds : ∀ value ∈ items, (a.valueAt value.slot).HasKind kind)
    (hadds : start.Adds [] m) (hnew : start.object? r = none)
    (ho : m.object? r = some (.array type (stored ++ zeros).toArray)) (hk : stored.length = k)
    (hzeros : zeros.length = items.length) (hsize : k + items.length ≤ 2 ^ 31) :
    ∃ m', straight (Run.callees run)
          ((items.zipIdx k).flatMap fun (value, index) => Layout.saveElement kind value index)
          (a.moved (.ref r :: s) n) m =
        .ok (a.moved (.ref r :: s) (n + 4 * items.length)) m' ∧ start.Adds [] m' ∧
      m'.object? r = some (.array type
        (stored ++ items.map fun value => a.valueAt value.slot).toArray) := by
  induction items generalizing k stored zeros m n with
  | nil =>
    cases zeros with
    | nil => exact ⟨m, rfl, hadds, ho⟩
    | cons z zeros => cases hzeros
  | cons value items ih =>
    cases zeros with
    | nil => cases hzeros
    | cons z zeros =>
      have hvalue := hkinds value (List.mem_cons_self ..)
      have hsizes : (stored ++ z :: zeros).toArray.size = k + (items.length + 1) := by
        simp only [List.size_toArray, List.length_append, hk]
        rw [hzeros, List.length_cons]
      have hset : (stored ++ z :: zeros).toArray.setIfInBounds k (a.valueAt value.slot) =
          ((stored ++ [a.valueAt value.slot]) ++ zeros).toArray := by
        simp [← hk]
      -- dup, the index, the value, and the store
      have hfirst : ∀ more, straight (Run.callees run) (Layout.saveElement kind value k ++ more)
          (a.moved (.ref r :: s) n) m = straight (Run.callees run) more
            (a.moved (.ref r :: s) (n + 4)) (m.put r (.array type
              ((stored ++ [a.valueAt value.slot]) ++ zeros).toArray)) := by
        intro more
        simp only [Layout.saveElement, List.cons_append, List.nil_append]
        rw [straight_dup rfl, straight_pushInt, straight_load rfl hvalue.ne_top,
          straight_arrayStore ho (by omega) (by rw [hsizes]; simpa using hsize),
          Value.HasKind.narrowed, hset]
      have hnext : (m.put r (.array type ((stored ++ [a.valueAt value.slot]) ++ zeros).toArray)).object?
          r = some (.array type ((stored ++ [a.valueAt value.slot]) ++ zeros).toArray) :=
        Machine.object?_put_self ho
      obtain ⟨m', hrun, hadds', ho'⟩ := ih (n + 4) (k + 1) _
        (fun v hv => hkinds v (List.mem_cons_of_mem _ hv)) (hadds.put_new hnew ho (.array ..)) hnext
        (by rw [List.length_append, hk]; rfl) (by simpa using hzeros)
        (by simp only [List.length_cons] at hsize; omega)
      refine ⟨m', ?_, hadds', ?_⟩
      · rw [List.zipIdx_cons, List.flatMap_cons, hfirst, hrun]
        congr 2
        simp only [List.length_cons]
        omega
      · rw [ho', List.append_assoc]
        rfl

theorem saveElements_length (kind : ValueKind) (items : List SavedValue) (k : Nat) :
    ((items.zipIdx k).flatMap fun (value, index) => Layout.saveElement kind value index).length =
      4 * items.length := by
  induction items generalizing k with
  | nil => rfl
  | cons value items ih =>
    rw [List.zipIdx_cons, List.flatMap_cons, List.length_append, ih, List.length_cons]
    simp only [Layout.saveElement, List.length_cons, List.length_nil]
    omega

/-- Allocating an array, by instruction or by the methods of an allocator. -/
theorem straight_allocateArray (hserves : m.Serves l.settings) (kind : ValueKind) {k : Nat}
    (hk : k < 2 ^ 31) :
    ∃ r m', straight (Run.callees run) (l.allocateArray kind :: rest)
          (a.moved (.int (Int32.ofNat k) :: s) n) m =
        straight (Run.callees run) rest (a.moved (.ref r :: s) (n + 1)) m' ∧ m.Adds [] m' ∧
      m.object? r = none ∧ m'.object? r = some (.array kind.arrayType
        (List.replicate k (Value.zero kind.elementType)).toArray) := by
  generalize ho : HeapObject.array kind.arrayType
    (Array.replicate k (Value.zero kind.elementType)) = o
  have hnew : m.object? (m.alloc o).1 = none := Array.getElem?_size
  have hself : (m.alloc o).2.object? (m.alloc o).1 = some (.array kind.arrayType
      (List.replicate k (Value.zero kind.elementType)).toArray) := by
    rw [Machine.object?_alloc_self, ← ho, List.toArray_replicate]
  cases hallocator : l.settings.allocator with
  | custom owner =>
    simp only [Layout.allocateArray, hallocator]
    exact ⟨_, _, straight_allocator hserves hallocator ho.symm hk,
      (Machine.Adds.alloc m o).trans (.aside _ _ rfl), hnew, hself⟩
  | instruction =>
    refine ⟨(m.alloc o).1, (m.alloc o).2, ?_, .alloc m o, hnew, hself⟩
    cases kind <;> simp only [Layout.allocateArray, hallocator] <;>
      exact straight_allocate ho.symm rfl hk

theorem buildArray_cons {kind : ValueKind} {values : List SavedValue}
    (h : values.filter (·.kind = kind) ≠ []) :
    l.buildArray kind values = .pushInt (Int32.ofNat (values.filter (·.kind = kind)).length) ::
      l.allocateArray kind :: (values.filter (·.kind = kind)).zipIdx.flatMap
        fun (value, index) => Layout.saveElement kind value index := by
  cases hitems : values.filter (·.kind = kind) with
  | nil => contradiction
  | cons value items =>
    simp only [Layout.buildArray, hitems]
    rfl

/-- Pushing the array of the values of one kind. -/
theorem straight_buildArray (hserves : m.Serves l.settings) (kind : ValueKind)
    (values : List SavedValue) (hkinds : ∀ value ∈ values, (a.valueAt value.slot).HasKind value.kind)
    (hsize : values.length < 2 ^ 31) :
    ∃ m' v, straight (Run.callees run) (l.buildArray kind values) (a.moved s n) m =
        .ok (a.moved (v :: s) (n + (l.buildArray kind values).length)) m' ∧ m.Adds [] m' ∧
      m'.HoldsArray v ((values.filter (·.kind = kind)).map fun value => a.valueAt value.slot) := by
  have hkinds' : ∀ value ∈ values.filter (·.kind = kind), (a.valueAt value.slot).HasKind kind := by
    intro value hvalue
    obtain ⟨hin, hkind⟩ := List.mem_filter.mp hvalue
    exact of_decide_eq_true hkind ▸ hkinds value hin
  have hsize' : (values.filter (·.kind = kind)).length < 2 ^ 31 :=
    Nat.lt_of_le_of_lt (List.length_filter_le _ _) hsize
  by_cases hnone : values.filter (·.kind = kind) = []
  · simp only [Layout.buildArray, hnone]
    exact ⟨m, .null, rfl, .refl m, .inl ⟨rfl, rfl⟩⟩
  · rw [buildArray_cons hnone]
    generalize values.filter (·.kind = kind) = items at hkinds' hsize' hnone
    obtain ⟨r, m₁, halloc, hadds₁, hnew, ho⟩ :=
      straight_allocateArray run a s (n + 1) hserves kind hsize'
    obtain ⟨m₂, hsave, hadds₂, ho₂⟩ := straight_saveElements run a s (n + 1 + 1) items 0 []
      hkinds' hadds₁ hnew ho rfl (by simp) (by omega)
    refine ⟨m₂, .ref r, ?_, hadds₂, .inr ⟨r, _, by simpa using hnone, rfl, ho₂⟩⟩
    rw [straight_pushInt, halloc, hsave]
    simp only [List.length_cons, saveElements_length]
    congr 2
    omega

/-- Pushing one array for each kind. -/
theorem straight_buildArrays (hserves : m.Serves l.settings) (kinds : List ValueKind)
    (values : List SavedValue) (hkinds : ∀ value ∈ values, (a.valueAt value.slot).HasKind value.kind)
    (hsize : values.length < 2 ^ 31) :
    ∃ m' arrays, straight (Run.callees run) (kinds.flatMap (l.buildArray · values)) (a.moved s n) m =
        .ok (a.moved (arrays.reverse ++ s) (n + (kinds.flatMap (l.buildArray · values)).length)) m' ∧
      m.Adds [] m' ∧ List.Forall₂ (fun kind v => m'.HoldsArray v
        ((values.filter (·.kind = kind)).map fun value => a.valueAt value.slot)) kinds arrays := by
  induction kinds generalizing m s n with
  | nil => exact ⟨m, [], rfl, .refl m, .nil⟩
  | cons kind kinds ih =>
    obtain ⟨m₁, v, hfirst, hadds₁, harray⟩ := straight_buildArray run a s n hserves kind values
      hkinds hsize
    obtain ⟨m₂, arrays, hrest, hadds₂, harrays⟩ := ih (v :: s)
      (n + (l.buildArray kind values).length) (hserves.adds hadds₁)
    refine ⟨m₂, v :: arrays, ?_, hadds₁.trans hadds₂, .cons (harray.adds hadds₂) harrays⟩
    rw [List.flatMap_cons, straight_append hfirst, hrest, List.length_append, List.reverse_cons,
      List.append_assoc, Nat.add_assoc]
    rfl

/-- Pushing an object that holds the values. -/
theorem straight_buildData (hserves : m.Serves l.settings) (values : List SavedValue)
    (hkinds : ∀ value ∈ values, (a.valueAt value.slot).HasKind value.kind)
    (hsize : values.length < 2 ^ 31) :
    ∃ m' v, straight (Run.callees run) (l.buildData values) (a.moved s n) m =
        .ok (a.moved (v :: s) (n + (l.buildData values).length)) m' ∧ m.Adds [] m' ∧
      m'.HoldsData v values fun value => a.valueAt value.slot := by
  obtain ⟨m₁, arrays, hrun, hadds, harrays⟩ := straight_buildArrays run a s n hserves ValueKind.all
    values hkinds hsize
  -- one array for each kind, in the order in which they are handed over
  match arrays, harrays with
  | [ints, longs, floats, doubles, objects], .cons hi (.cons hl (.cons hf (.cons hd (.cons ho .nil)))) =>
    have hnew := Machine.Adds.alloc m₁ (.data ⟨ints, longs, floats, doubles, objects⟩)
    refine ⟨_, .ref (m₁.alloc (.data ⟨ints, longs, floats, doubles, objects⟩)).1, ?_,
      hadds.trans hnew, _, _, rfl, Machine.object?_alloc_self m₁ _, fun kind => ?_⟩
    · rw [Layout.buildData, straight_append hrun]
      refine (straight_createData (hserves.adds hadds)
        ⟨ints, longs, floats, doubles, objects⟩).trans ?_
      rw [straight_nil, List.length_append, ← Nat.add_assoc]
      rfl
    · cases kind with
      | int => exact hi.adds hnew
      | long => exact hl.adds hnew
      | float => exact hf.adds hnew
      | double => exact hd.adds hnew
      | object => exact ho.adds hnew

end Body

/-! ## The method state -/

/-- Is this the saved state of a point, with these values of saved locals and of the saved stack? -/
def Machine.Recorded (m : Machine) (plan : MethodPlan) (p : SuspendPoint)
    (leases : List (Option Lease)) (lockState : Value) (value : SavedValue → Value) (r : Ref) :
    Prop :=
  ∃ locals stack, m.object? r = some (.methodState
      { owner := plan.owner.text, id := plan.id, version := plan.version
        point := Int32.ofNat p.id, lockState, locals, stack }) ∧
    m.HoldsData locals p.savedLocals value ∧
    m.HoldsData stack (savedStack p.stackToSave leases) value

theorem Machine.Recorded.sameBut {m m' : Machine} {plan : MethodPlan} {p : SuspendPoint}
    {leases : List (Option Lease)} {lockState : Value} {value : SavedValue → Value} {r cont : Ref}
    {c : Continuation Ref} (h : m.Recorded plan p leases lockState value r)
    (hc : m.object? cont = some (.continuation c)) (hsame : m.SameBut cont m') :
    m'.Recorded plan p leases lockState value r := by
  obtain ⟨locals, stack, ho, hlocals, hstack⟩ := h
  exact ⟨locals, stack, hsame.other hc ho rfl, hlocals.sameBut hc hsame,
    hstack.sameBut hc hsame⟩

theorem Machine.Recorded.adds {m m' : Machine} {plan : MethodPlan} {p : SuspendPoint}
    {leases : List (Option Lease)} {lockState : Value} {value : SavedValue → Value} {r : Ref}
    (h : m.Recorded plan p leases lockState value r) (hadds : m.Adds [] m') :
    m'.Recorded plan p leases lockState value r := by
  obtain ⟨locals, stack, ho, hlocals, hstack⟩ := h
  exact ⟨locals, stack, hadds.same ho, hlocals.adds hadds, hstack.adds hadds⟩

namespace Body

variable {l : Layout} {m : Machine} (run : MethodRunner) (a : Activation) (s : List Value) (n : Nat)

/-- Making the method state and handing it over. -/
theorem straight_pushState (hserves : m.Serves l.settings) {p : SuspendPoint}
    {leases : List (Option Lease)} {cont : Ref} {c : Continuation Ref} {lockState : Value}
    (hcont : a.valueAt l.continuation.slot = .ref cont)
    (hc : m.object? cont = some (.continuation c))
    (hlock : match l.monitors with
      | some v => a.valueAt v.lockState.slot = lockState ∧ lockState ≠ .top
      | none => lockState = .null)
    (hlocals : ∀ value ∈ p.savedLocals, (a.valueAt value.slot).HasKind value.kind)
    (hstack : ∀ value ∈ savedStack p.stackToSave leases,
      (a.valueAt value.slot).HasKind value.kind)
    (hlocalsSize : p.savedLocals.length < 2 ^ 31)
    (hstackSize : (savedStack p.stackToSave leases).length < 2 ^ 31) :
    ∃ m' r, straight (Run.callees run) (l.pushState p leases) (a.moved s n) m =
        .ok (a.moved s (n + (l.pushState p leases).length)) m' ∧ m.Adds [cont] m' ∧
      m'.object? cont = some (.continuation (c.push r)) ∧
      m'.Recorded l.plan p leases lockState (fun value => a.valueAt value.slot) r := by
  have hintern := Machine.Adds.intern m l.plan.owner.text
  have hstring := (hserves.literals.intern l.plan.owner.text).2
  generalize hm₁ : (m.intern l.plan.owner.text).2 = m₁ at hintern hstring
  generalize hstr : (m.intern l.plan.owner.text).1 = str at hstring
  have hpush : ∀ more, straight (Run.callees run)
      ([l.continuation.load, .pushConstant (.string l.plan.owner.text), .pushInt l.plan.id,
        .pushInt l.plan.version, .pushInt (Int32.ofNat p.id), l.pushLockState] ++ more)
      (a.moved s n) m = straight (Run.callees run) more (a.moved (lockState ::
        .int (Int32.ofNat p.id) :: .int l.plan.version :: .int l.plan.id :: .ref str ::
        .ref cont :: s) (n + 6)) m₁ := by
    intro more
    simp only [Lease.load, List.cons_append, List.nil_append]
    rw [straight_load hcont nofun, straight_pushString, straight_pushInt, straight_pushInt,
      straight_pushInt, hm₁, hstr, Layout.pushLockState]
    cases hmonitors : l.monitors with
    | none =>
      rw [hmonitors] at hlock
      cases hlock
      rfl
    | some v =>
      rw [hmonitors] at hlock
      exact straight_load hlock.1 hlock.2
  -- two objects for what is saved, one after the other; each finds the machine with what came
  -- before it
  have hserves₁ := hserves.adds hintern
  obtain ⟨m₂, locals, hbuild₂, hadds₂, hdata₂⟩ := straight_buildData run a (lockState ::
    .int (Int32.ofNat p.id) :: .int l.plan.version :: .int l.plan.id :: .ref str :: .ref cont :: s)
    (n + 6) hserves₁ p.savedLocals hlocals hlocalsSize
  have hserves₂ := hserves₁.adds hadds₂
  obtain ⟨m₃, stack, hbuild₃, hadds₃, hdata₃⟩ := straight_buildData run a (locals :: lockState ::
    .int (Int32.ofNat p.id) :: .int l.plan.version :: .int l.plan.id :: .ref str :: .ref cont :: s)
    (n + 6 + (l.buildData p.savedLocals).length) hserves₂ (savedStack p.stackToSave leases) hstack
    hstackSize
  have hserves₃ := hserves₂.adds hadds₃
  generalize hstate : HeapObject.methodState
    { owner := l.plan.owner.text, id := l.plan.id, version := l.plan.version
      point := Int32.ofNat p.id, lockState, locals, stack } = state
  have hadds₄ := Machine.Adds.alloc m₃ state
  have hbefore : m.Adds [] (m₃.alloc state).2 := ((hintern.trans hadds₂).trans hadds₃).trans hadds₄
  have hc₄ := hbefore.same hc
  have hself := Machine.object?_alloc_self m₃ state
  have hput := Machine.Adds.put _ hc₄ (.continuation c (c.push (m₃.alloc state).1))
  refine ⟨_, (m₃.alloc state).1, ?_, hbefore.anything.trans hput,
    Machine.object?_put_self hc₄, ?_⟩
  · rw [Layout.pushState, List.append_assoc, List.append_assoc, hpush, straight_append hbuild₂,
      straight_append hbuild₃,
      straight_createState hserves₃ ((hadds₂.trans hadds₃).same hstring), hstate,
      straight_pushNewState (hserves₃.adds hadds₄) hc₄, straight_nil]
    simp only [List.length_append, List.length_cons, List.length_nil]
    congr 2
    omega
  · have hrecorded : (m₃.alloc state).2.Recorded l.plan p leases lockState
        (fun value => a.valueAt value.slot) (m₃.alloc state).1 :=
      ⟨locals, stack, by rw [hself, ← hstate], (hdata₂.adds hadds₃).adds hadds₄, hdata₃.adds hadds₄⟩
    exact hrecorded.sameBut hc₄ hput.sameBut

end Body

end Resumption
