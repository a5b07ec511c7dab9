import Resumption.Proofs.Instrument.Points
import Resumption.Proofs.Instrument.Saving
import Resumption.Proofs.Machine.Paths

/-!
# The loops over monitors

A method that holds monitors leaves them when it saves and enters them again when it restores.

* **`reaches_enterRounds`** and **`reaches_exitRounds`**: the rounds of the loops, one monitor each,
  by induction on the monitors that are left to do.
* **`reaches_enters`** and **`reaches_exits`**: the loops as they stand in a method, where there are
  none if the body has no monitors.
-/

namespace Resumption

/-- Leaves monitors one after the other; `none` if one of them is not held. -/
def Monitors.leave? (held : Monitors) (monitors : List Ref) : Option Monitors :=
  monitors.foldlM Monitors.exit? held

/-- Enters monitors one after the other. -/
def Monitors.enterAll (held : Monitors) (monitors : List Ref) : Monitors :=
  monitors.foldl Monitors.enter held

/-- A narrow value is safe from a narrow store elsewhere. -/
theorem Activation.valueAt_store_narrow {a : Activation} {slot slot' : Nat} {v w : Value}
    (hw : a.valueAt slot = w) (hnarrow : w.width = 1) (hv : v.width = 1) (hne : slot ≠ slot') :
    (a.store slot' v).valueAt slot = w := by
  rw [valueAt_store_of_ne hne (by rw [hv]; exact nofun) (by rw [hw]; exact fun _ => hnarrow), hw]

/-- The variables of the loops are different. -/
structure MonitorVariables.Distinct (v : MonitorVariables) : Prop where
  /-- the array and the position in it -/
  array_index : v.array.slot ≠ v.index.slot
  /-- the record and the array -/
  lockState_array : v.lockState.slot ≠ v.array.slot
  /-- the record and the position -/
  lockState_index : v.lockState.slot ≠ v.index.slot

/-- A cell that the loops store into. -/
def MonitorVariables.Owns (v : MonitorVariables) (c : Cell) : Prop :=
  c.1 ∈ [v.lockState.slot, v.array.slot, v.index.slot] ∧ c.2.width = 1

/-- The machine with other monitors. -/
def Machine.holding (m : Machine) (monitors : Monitors) : Machine := { m with monitors }

theorem Machine.precedes_holding (m : Machine) (monitors : Monitors) :
    m.Precedes (m.holding monitors) ∧ (m.holding monitors).Precedes m :=
  ⟨.of_heap_eq rfl rfl rfl rfl (fun _ h => h) rfl rfl,
    .of_heap_eq rfl rfl rfl rfl (fun _ h => h) rfl rfl⟩

/-- Monitors are apart from the rest of the machine. -/
theorem Machine.Adds.holding {m m' : Machine} {changed : List Ref} (h : m.Adds changed m')
    (monitors : Monitors) : (m.holding monitors).Adds changed (m'.holding monitors) where
  later := ((m.precedes_holding monitors).2.trans h.later).trans (m'.precedes_holding monitors).1
  objects := h.objects
  monitors := rfl
  statics := h.statics
  probes := h.probes
  monitorProbes := h.monitorProbes
  rollbacks := h.rollbacks
  literals := h.literals

/-- Has a later machine the same objects but for the continuation, and none that was rolled back?
Monitors may have been entered. -/
def Machine.Loads (cont : Ref) (m m' : Machine) : Prop := m.Adds [cont] (m'.holding m.monitors)

namespace Machine.Loads

variable {m m' m'' : Machine} {cont : Ref}

theorem of_adds (h : m.Adds [cont] m') : m.Loads cont m' := by
  have hself : m'.holding m.monitors = m' := by
    rw [← h.monitors]
    rfl
  rw [Loads, hself]
  exact h

/-- Monitors are entered. -/
theorem holding (h : m.Loads cont m') (monitors : Monitors) :
    m.Loads cont (m'.holding monitors) := h

theorem trans (h : m.Loads cont m') (h' : m'.Loads cont m'') : m.Loads cont m'' :=
  Adds.trans h (Adds.holding h' m.monitors)

theorem later (h : m.Loads cont m') : m.Precedes m' :=
  (Adds.later h).trans (m'.precedes_holding m.monitors).2

theorem object? (h : m.Loads cont m') {r : Ref} {o : HeapObject} (hr : r ≠ cont)
    (ho : m.object? r = some o) : m'.object? r = some o :=
  Adds.objects h r o (fun hin => hr (List.mem_singleton.mp hin)) ho

end Machine.Loads

theorem Machine.Serves.withMonitors {settings : Settings} {m : Machine} (h : m.Serves settings)
    (monitors : Monitors) : ({ m with monitors } : Machine).Serves settings :=
  ⟨h.standard, h.allocator, h.printing, h.literals⟩

namespace Body

/-- Part of a list of instructions stands where it should. -/
theorem Has.slice {body : Body} {k : Nat} {is : List Instruction} (h : body.Has k is) (n j : Nat) :
    body.Has (k + n) ((is.drop n).take j) := by
  obtain ⟨tail, htail⟩ := h
  have hdrop : is.drop n <+: body.instructions.toList.drop (k + n) := by
    rw [← List.drop_drop, ← htail, List.drop_append]
    exact List.prefix_append _ _
  exact (List.take_prefix j _).trans hdrop

variable {run : MethodRunner} {settings : Settings} {body : Body} {a : Activation} {s : List Value}
  {m : Machine} {l : Layout} {v : MonitorVariables} {start stop : Label} {k : Nat} {r : Ref}

theorem straight_getLockState {rest : List Instruction} {n : Nat} (hserves : m.Serves settings)
    {state : MethodState} (h : m.object? r = some (.methodState state)) :
    straight (Run.callees run) (callVirtual Interface.MethodState.getLockState :: rest)
        (a.moved (.ref r :: s) n) m =
      straight (Run.callees run) rest (a.moved (state.lockState :: s) (n + 1)) m :=
  straight_native (s := s) (hserves.standard (_, .stateObject .lockState) (by decide))
    (Native.run_stateObject h .lockState) rfl rfl rfl

/-- The array object that the monitors are in while a loop goes over them. -/
def monitorArray (monitors : List Ref) : HeapObject :=
  .array (.array (.object .object)) (monitors.map Value.ref).toArray

theorem straight_toArray {rest : List Instruction} {n : Nat} (hserves : m.Serves settings)
    {locks : LockState Ref} (h : m.object? r = some (.lockState locks)) :
    straight (Run.callees run) (callVirtual Interface.LockState.toArray :: rest)
        (a.moved (.ref r :: s) n) m =
      straight (Run.callees run) rest
        (a.moved (.ref (m.alloc (monitorArray locks.monitors)).1 :: s) (n + 1))
        (m.alloc (monitorArray locks.monitors)).2 :=
  straight_native (s := s) (hserves.standard (_, .locksToArray) (by decide))
    (Native.run_locksToArray h) rfl rfl rfl

/-! ## Entering -/

/-- What the end of the loop is found by: position and length. -/
theorem straight_enterTest {rest : List Instruction} {n : Nat} {monitors : List Ref} {i : Int32}
    (harray : a.valueAt v.array.slot = .ref r) (hindex : a.valueAt v.index.slot = .int i)
    (ho : m.object? r = some (monitorArray monitors)) :
    straight (Run.callees run) (.label start :: v.index.load :: v.array.load :: .arrayLength :: rest)
        (a.moved s n) m =
      straight (Run.callees run) rest
        (a.moved (.int (Int32.ofNat monitors.length) :: .int i :: s) (n + 4)) m := by
  have hlength : (monitors.map Value.ref).toArray.size = monitors.length := by simp
  simp only [Lease.load]
  rw [straight_label, straight_load hindex (by simp), straight_load harray (by simp),
    straight_arrayLength ho, hlength]

/-- How many of so many monitors are entered: those that an index can count. -/
def counted (length : Nat) : Nat := (Int32.ofNat length).toInt.toNat

theorem counted_lt (length : Nat) : counted length < 2 ^ 31 := by
  have := (Int32.ofNat length).toInt_lt
  rw [counted]
  omega

theorem counted_le (length : Nat) : counted length ≤ length := by
  have hsize : Int32.size = 2 ^ 32 := rfl
  rw [counted, Int32.toInt_ofNat', Int.bmod, hsize]
  split <;> omega

/-- Usually that is all of them. -/
theorem counted_of_lt {length : Nat} (h : length < 2 ^ 31) : counted length = length := by
  rw [counted, Int32.toInt_ofNat_of_lt h, Int.toNat_natCast]

/-- The end of the loop is found by a comparison with the length. -/
theorem compare_counted {i length : Nat} (hi : i ≤ counted length) :
    Comparison.ge.holds (compare (Int32.ofNat i).toInt (Int32.ofNat length).toInt) =
      decide (counted length ≤ i) := by
  have hlt := counted_lt length
  rw [Int32.toInt_ofNat_of_lt (by omega)]
  rw [counted] at hi ⊢
  by_cases hless : (i : Int) < (Int32.ofNat length).toInt
  · rw [Int.compare_eq_lt.mpr hless, decide_eq_false (by omega)]
    rfl
  · rw [decide_eq_true (by omega)]
    rcases Int.lt_or_eq_of_le (Int.not_lt.mp hless) with hgreater | hequal
    · rw [Int.compare_eq_gt.mpr hgreater]
      rfl
    · rw [Int.compare_eq_eq.mpr hequal.symm]
      rfl

/-- One round. -/
theorem straight_enterRound {n : Nat} {done todo : List Ref} {monitor : Ref}
    (harray : a.valueAt v.array.slot = .ref r)
    (hindex : a.valueAt v.index.slot = .int (Int32.ofNat done.length))
    (ho : m.object? r = some (monitorArray (done ++ monitor :: todo)))
    (hless : done.length < counted (done ++ monitor :: todo).length) :
    straight (Run.callees run) (((l.enterLoop v start stop).drop 8).take 10) (a.moved s n) m =
      .ok ((a.store v.index.slot (.int (Int32.ofNat (done.length + 1)))).moved s (n + 10))
        { m with monitors := m.monitors.enter monitor } := by
  have hcompare : Comparison.ge.holds (compare (Int32.ofNat done.length).toInt
      (Int32.ofNat (done ++ monitor :: todo).length).toInt) = false := by
    rw [compare_counted (Nat.le_of_lt hless), decide_eq_false (Nat.not_le.mpr hless)]
  have hget : ((done ++ monitor :: todo).map Value.ref).toArray[done.length]? =
      some (.ref monitor) := by simp
  have hnext : Int32.ofNat done.length + (1 : Int16).toInt32 = Int32.ofNat (done.length + 1) := by
    rw [Int32.ofNat_add]
    rfl
  refine (straight_enterTest harray hindex ho).trans ?_
  simp only [Lease.load, List.take_succ_cons, List.take_zero]
  rw [straight_ifInt hcompare, straight_load harray (by simp), straight_load hindex (by simp),
    straight_arrayLoad ho hget (Nat.lt_trans hless (counted_lt _)), straight_monitorEnter,
    straight_increment hindex, hnext, straight_nil]

/-- The rounds that are left: the monitors `todo`, after those that are `done`. The others are too
many to count. -/
theorem reaches_enterRounds (hrun : Plain run) (hat : body.Has k (l.enterLoop v start stop))
    (hstart : body.positions.find start = .ok (k + 8))
    (hstop : body.positions.find stop = .ok (k + 19)) (hv : v.Distinct)
    (todo done others : List Ref) (harray : a.valueAt v.array.slot = .ref r)
    (hindex : a.valueAt v.index.slot = .int (Int32.ofNat done.length))
    (ho : m.object? r = some (monitorArray (done ++ (todo ++ others))))
    (hcount : counted (done ++ (todo ++ others)).length = (done ++ todo).length) :
    ∃ cells, Reaches (Run.callees run) body (a.placed s (k + 8)) m
        ((a.storeAll cells).placed s (k + 19))
        { m with monitors := m.monitors.enterAll todo } ∧
      ∀ c ∈ cells, c.1 = v.index.slot ∧ c.2.width = 1 := by
  -- By induction on the monitors to be entered. The counter in its variable is the number of those
  -- done, and the array does not change.
  induction todo generalizing a m done with
  | nil =>
    rw [List.append_nil] at hcount
    rw [List.nil_append] at ho hcount
    have htest : Reaches (Run.callees run) body (a.placed s (k + 8)) m (a.placed
        (.int (Int32.ofNat (done ++ others).length) :: .int (Int32.ofNat done.length) :: s)
        (k + 12)) m :=
      .straight hrun (hat.slice 8 4)
        (straight_enterTest (a := a.placed s (k + 8)) (n := 0) harray hindex ho)
    have hdone : Comparison.ge.holds (compare (Int32.ofNat done.length).toInt
        (Int32.ofNat (done ++ others).length).toInt) = true := by
      rw [compare_counted (Nat.le_of_eq hcount.symm), hcount, decide_eq_true (Nat.le_refl _)]
    exact ⟨[], htest.trans (.ifInt (hat.slice 12 1) hstop hdone), nofun⟩
  | cons monitor todo ih =>
    have hless : done.length < counted (done ++ monitor :: (todo ++ others)).length := by
      rw [← List.cons_append, hcount, List.length_append, List.length_cons]
      omega
    have hround := Reaches.straight (a := a) (s := s) hrun (hat.slice 8 10)
      (straight_enterRound (a := a.placed s (k + 8)) (n := 0) harray hindex ho hless)
    obtain ⟨cells, hrest, hcells⟩ := ih (m := { m with monitors := m.monitors.enter monitor })
      (done ++ [monitor])
      (Activation.valueAt_store_narrow (v := .int (Int32.ofNat (done.length + 1))) harray rfl rfl
        hv.array_index)
      (by rw [Activation.valueAt_store_self, List.length_append]; rfl)
      (by rw [List.append_assoc]; exact ho)
      (by rw [List.append_assoc, List.append_assoc]; exact hcount)
    refine ⟨(v.index.slot, .int (Int32.ofNat (done.length + 1))) :: cells,
      (hround.trans (.goto (hat.slice 18 1) hstart)).trans hrest, fun c hc => ?_⟩
    rcases List.mem_cons.mp hc with rfl | hc
    · exact ⟨rfl, rfl⟩
    · exact hcells c hc

/-- The array for a loop over monitors is new on the heap. -/
theorem adds_monitorArray {m' : Machine} {monitors : List Ref} {arr : Ref}
    (harr : m.alloc (monitorArray monitors) = (arr, m')) :
    m.Adds [] m' ∧ m'.object? arr = some (monitorArray monitors) := by
  cases harr
  exact ⟨.alloc m _, Machine.object?_alloc_self m _⟩

/-- Entering the monitors of the lock state that a method state holds. -/
theorem reaches_enterLoop {code : Code} (hrun : Plain run) (hbody : ofCode code = .ok body)
    (hat : body.Has k (l.enterLoop v start stop)) (hv : v.Distinct) (hserves : m.Serves settings)
    {state : MethodState} {lock : Ref} {locks : LockState Ref}
    (hstate : a.valueAt l.state.slot = .ref r) (ho : m.object? r = some (.methodState state))
    (hlock : state.lockState = .ref lock) (hlocks : m.object? lock = some (.lockState locks)) :
    ∃ cells m', Reaches (Run.callees run) body (a.placed s k) m
        ((a.storeAll cells).placed s (k + 20))
        { m' with monitors :=
            m'.monitors.enterAll (locks.monitors.take (counted locks.monitors.length)) } ∧
      m.Adds [] m' ∧
      (∀ c ∈ cells, v.Owns c) ∧ (a.storeAll cells).valueAt v.lockState.slot = .ref lock := by
  generalize harr : m.alloc (monitorArray locks.monitors) = array
  obtain ⟨arr, m'⟩ := array
  obtain ⟨hadds, hself⟩ := adds_monitorArray harr
  -- what the loop starts with: lock state, array and position are in their variables
  generalize hb : a.storeAll [(v.lockState.slot, .ref lock), (v.array.slot, .ref arr),
    (v.index.slot, .int 0)] = b
  have harray : b.valueAt v.array.slot = .ref arr := by
    rw [← hb]
    exact Activation.valueAt_store_narrow (Activation.valueAt_store_self ..) rfl rfl hv.array_index
  have hindex : b.valueAt v.index.slot = .int 0 := by
    rw [← hb]
    exact Activation.valueAt_store_self ..
  have hlock' : b.valueAt v.lockState.slot = .ref lock := by
    rw [← hb]
    exact Activation.valueAt_store_narrow (Activation.valueAt_store_narrow
      (Activation.valueAt_store_self ..) rfl rfl hv.lockState_array) rfl rfl hv.lockState_index
  have hbegin : straight (Run.callees run) (((l.enterLoop v start stop).drop 0).take 8)
      (a.placed s k) m = .ok (b.placed s (k + 8)) m' := by
    simp only [Layout.enterLoop, Lease.load, Lease.store, List.drop_zero, List.take_succ_cons,
      List.take_zero]
    refine (straight_load (a := a.placed s k) (n := 0) hstate (by simp)).trans ?_
    rw [straight_getLockState hserves ho, hlock, straight_store,
      straight_load (v := .ref lock) (Activation.valueAt_store_self ..) (by simp),
      straight_toArray hserves hlocks, harr,
      straight_store, straight_pushInt, straight_store, straight_nil, ← hb]
    rfl
  have hfind := fun j label (h : ((l.enterLoop v start stop).drop j).take 1 = [.label label]) =>
    find_label hbody (h ▸ hat.slice j 1 : body.Has (k + j) [.label label])
  have hsplit := (List.take_append_drop (counted locks.monitors.length) locks.monitors).symm
  obtain ⟨cells, hrounds, hcells⟩ := reaches_enterRounds (s := s) hrun hat (hfind 8 start rfl)
    (hfind 19 stop rfl) hv (locks.monitors.take (counted locks.monitors.length)) []
    (locks.monitors.drop (counted locks.monitors.length)) harray hindex
    (by rw [List.nil_append, ← hsplit]; exact hself) (by
      rw [List.nil_append, List.nil_append, ← hsplit, List.length_take]
      exact (Nat.min_eq_left (counted_le _)).symm)
  refine ⟨(v.lockState.slot, .ref lock) :: (v.array.slot, .ref arr) :: (v.index.slot, .int 0) ::
    cells, m', ?_, hadds, ?_, ?_⟩
  · rw [← hb] at hrounds hbegin
    exact ((Reaches.straight hrun (hat.slice 0 8) hbegin).trans hrounds).trans
      (.label (hat.slice 19 1))
  · intro c hc
    simp only [List.mem_cons] at hc
    rcases hc with rfl | rfl | rfl | hc
    · exact ⟨by simp, rfl⟩
    · exact ⟨by simp, rfl⟩
    · exact ⟨by simp, rfl⟩
    · exact ⟨by simp [(hcells c hc).1], (hcells c hc).2⟩
  · rw [← hb] at hlock'
    refine Activation.valueAt_storeAll_of_apart hlock' fun c hc => ?_
    have hne := hv.lockState_index
    rw [Span.Apart, Cell.span, (hcells c hc).1, (hcells c hc).2]
    show v.lockState.slot + 1 ≤ v.index.slot ∨ v.index.slot + 1 ≤ v.lockState.slot
    omega

/-! ## Leaving -/

/-- One round. -/
theorem straight_exitRound {n : Nat} {todo done : List Ref} {monitor : Ref} {left : Monitors}
    (hv : v.Distinct) (harray : a.valueAt v.array.slot = .ref r)
    (hindex : a.valueAt v.index.slot = .int (Int32.ofNat (todo.length + 1)))
    (ho : m.object? r = some (monitorArray (todo ++ monitor :: done)))
    (hsize : (todo ++ monitor :: done).length < 2 ^ 31)
    (hexit : m.monitors.exit? monitor = some left) :
    straight (Run.callees run) (((Layout.exitLoop v start stop).drop 6).take 8) (a.moved s n) m =
      .ok ((a.store v.index.slot (.int (Int32.ofNat todo.length))).moved s (n + 8))
        { m with monitors := left } := by
  have hlength : todo.length + 1 ≤ (todo ++ monitor :: done).length := by simp
  have hcompare : Comparison.le.holds (compare (Int32.ofNat (todo.length + 1)).toInt 0) = false := by
    rw [Int32.toInt_ofNat_of_lt (by omega), Int.compare_eq_gt.mpr (by omega)]
    rfl
  have hget : ((todo ++ monitor :: done).map Value.ref).toArray[todo.length]? =
      some (.ref monitor) := by simp
  have hnext : Int32.ofNat (todo.length + 1) + (-1 : Int16).toInt32 = Int32.ofNat todo.length := by
    rw [Int32.ofNat_add, Int32.add_assoc]
    exact Int32.add_zero _
  have hindex' : (a.store v.index.slot (.int (Int32.ofNat todo.length))).valueAt v.index.slot =
      .int (Int32.ofNat todo.length) := Activation.valueAt_store_self ..
  have harray' : (a.store v.index.slot (.int (Int32.ofNat todo.length))).valueAt v.array.slot =
      .ref r := Activation.valueAt_store_narrow harray rfl rfl hv.array_index
  simp only [Layout.exitLoop, Lease.load, List.drop_succ_cons, List.drop_zero, List.take_succ_cons,
    List.take_zero]
  rw [straight_label, straight_load hindex (by simp), straight_ifZero hcompare,
    straight_increment hindex, hnext, straight_load harray' (by simp),
    straight_load hindex' (by simp),
    straight_arrayLoad ho hget (Nat.lt_of_lt_of_le hlength (Nat.le_of_lt hsize)),
    straight_monitorExit hexit,
    straight_nil]

/-- The rounds that are left: the monitors `todo`, the last one first. -/
theorem reaches_exitRounds (hrun : Plain run) (hat : body.Has k (Layout.exitLoop v start stop))
    (hstart : body.positions.find start = .ok (k + 6))
    (hstop : body.positions.find stop = .ok (k + 15)) (hv : v.Distinct) (todo done : List Ref)
    {left : Monitors} (harray : a.valueAt v.array.slot = .ref r)
    (hindex : a.valueAt v.index.slot = .int (Int32.ofNat todo.length))
    (ho : m.object? r = some (monitorArray (todo ++ done)))
    (hsize : (todo ++ done).length < 2 ^ 31)
    (hleave : m.monitors.leave? todo.reverse = some left) :
    ∃ cells, Reaches (Run.callees run) body (a.placed s (k + 6)) m
        ((a.storeAll cells).placed s (k + 15)) { m with monitors := left } ∧
      ∀ c ∈ cells, c.1 = v.index.slot ∧ c.2.width = 1 := by
  -- monitors are left in reverse order, so the induction takes the last one off
  induction todo using List.reverseRecOn generalizing a m done with
  | nil =>
    cases hleave
    have htest : Body.straight (Run.callees run) [.label start, v.index.load] (a.placed s (k + 6)) m =
        .ok (a.placed (.int 0 :: s) (k + 8)) m :=
      (straight_label (a := a.placed s (k + 6)) (n := 0) start).trans (straight_load hindex nofun)
    exact ⟨[], (Reaches.straight hrun (hat.slice 6 2) htest).trans
      (.ifZero (hat.slice 8 1) hstop (by decide)), nofun⟩
  | append_singleton todo monitor ih =>
    rw [List.append_assoc] at ho hsize
    rw [List.length_append] at hindex
    rw [List.reverse_concat, Monitors.leave?, List.foldlM_cons] at hleave
    obtain ⟨left', hexit, hleave⟩ := Option.bind_eq_some_iff.mp hleave
    have hround := Reaches.straight (a := a) (s := s) hrun (hat.slice 6 8)
      (straight_exitRound (a := a.placed s (k + 6)) (n := 0) hv harray hindex ho hsize hexit)
    obtain ⟨cells, hrest, hcells⟩ := ih (m := { m with monitors := left' }) (monitor :: done)
      (Activation.valueAt_store_narrow (v := .int (Int32.ofNat todo.length)) harray rfl rfl
        hv.array_index)
      (Activation.valueAt_store_self ..) ho hsize hleave
    refine ⟨(v.index.slot, .int (Int32.ofNat todo.length)) :: cells,
      (hround.trans (.goto (hat.slice 14 1) hstart)).trans hrest, fun c hc => ?_⟩
    rcases List.mem_cons.mp hc with rfl | hc
    · exact ⟨rfl, rfl⟩
    · exact hcells c hc

/-- Leaving all monitors of the lock state of the activation. -/
theorem reaches_exitLoop {code : Code} (hrun : Plain run) (hbody : ofCode code = .ok body)
    (hat : body.Has k (Layout.exitLoop v start stop)) (hv : v.Distinct)
    (hserves : m.Serves settings) {lock : Ref} {locks : LockState Ref} {left : Monitors}
    (hlock : a.valueAt v.lockState.slot = .ref lock)
    (hlocks : m.object? lock = some (.lockState locks))
    (hsize : locks.monitors.length < 2 ^ 31)
    (hleave : m.monitors.leave? locks.monitors.reverse = some left) :
    ∃ (b : Activation) (m' : Machine), Reaches (Run.callees run) body (a.placed s k) m
        (b.placed s (k + 16))
        { m' with monitors := left } ∧ m.Adds [] m' := by
  generalize harr : m.alloc (monitorArray locks.monitors) = array
  obtain ⟨arr, m'⟩ := array
  obtain ⟨hadds, hself⟩ := adds_monitorArray harr
  have hlength : (locks.monitors.map Value.ref).toArray.size = locks.monitors.length := by simp
  have hstored : (a.store v.array.slot (.ref arr)).valueAt v.array.slot = .ref arr :=
    Activation.valueAt_store_self ..
  have hbegin : straight (Run.callees run) (((Layout.exitLoop v start stop).drop 0).take 6)
      (a.placed s k) m = .ok (((a.store v.array.slot (.ref arr)).store v.index.slot
        (.int (Int32.ofNat locks.monitors.length))).placed s (k + 6)) m' := by
    simp only [Layout.exitLoop, Lease.load, Lease.store, List.drop_zero, List.take_succ_cons,
      List.take_zero]
    refine (straight_load (a := a.placed s k) (n := 0) hlock (by simp)).trans ?_
    rw [straight_toArray hserves hlocks, harr, straight_store,
      straight_load (v := .ref arr) (Activation.valueAt_store_self ..) (by simp),
      straight_arrayLength hself, hlength, straight_store, straight_nil]
    rfl
  have hfind := fun j label (h : ((Layout.exitLoop v start stop).drop j).take 1 = [.label label]) =>
    find_label hbody (h ▸ hat.slice j 1 : body.Has (k + j) [.label label])
  obtain ⟨cells, hrounds, -⟩ := reaches_exitRounds (s := s) hrun hat (hfind 6 start rfl)
    (hfind 15 stop rfl) hv locks.monitors []
    (Activation.valueAt_store_narrow (v := .int (Int32.ofNat locks.monitors.length)) hstored rfl rfl
      hv.array_index)
    (Activation.valueAt_store_self ..) (by rw [List.append_nil]; exact hself)
    (by rw [List.append_nil]; exact hsize) (by rw [hadds.monitors]; exact hleave)
  exact ⟨_, m', ((Reaches.straight hrun (hat.slice 0 6) hbegin).trans hrounds).trans
    (.label (hat.slice 15 1)), hadds⟩

end Body

end Resumption
