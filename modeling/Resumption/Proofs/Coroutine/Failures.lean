import Resumption.Proofs.Coroutine.Snapshots
import Resumption.Proofs.Instrument.RoundTrip

/-!
# Executions that fail

An execution that ends with an error leaves the coroutine as it was saved, for another try or for a
snapshot (`Coroutine.execute_failed`): the same states are saved, the next execution begins in the
same way, and what is captured of a state has the same key, locals and stack.

The monitors are the exception. A method that was resumed goes on with the lock state that it was
saved with, so the monitors of a saved state are those that the method held in the end
(`Coroutine.execute_failed_unlocks`).
-/

namespace Resumption

namespace Machine

/-- The arrays of a data object. -/
def dataArrays (m : Machine) : Value → List Ref
  | .ref r =>
    match m.object? r with
    | some (.data d) => d.toList.filterMap Value.ref?
    | _ => []
  | _ => []

/-- The arrays that the values of a saved state are in. -/
def savedArrays (m : Machine) (state : Ref) : List Ref :=
  match m.object? state with
  | some (.methodState s) => m.dataArrays s.locals ++ m.dataArrays s.stack
  | _ => []

/-- The monitors that the lock state of a saved state has recorded. -/
def savedMonitors (m : Machine) (state : Ref) : List Ref :=
  match m.object? state with
  | some (.methodState s) => m.recorded s.lockState
  | _ => []

end Machine

/-- What an execution starts with is what was saved. -/
theorem Continuation.beginCycle_congr {k k' : Continuation Ref} (hsaved : k'.saved = k.saved)
    (hfirst : k'.first = k.first) : k'.beginCycle = k.beginCycle := by
  simp only [beginCycle, rewind, hsaved, hfirst]

namespace Coroutine

variable {c c' : Coroutine} {k : Continuation Ref} {e : RunError}

/-! ## Whatever runs -/

/-- Beginning a cycle changes nothing but the continuation. -/
theorem setState_proceeds (hk : c.state = .ok k) :
    c.machine.Proceeds (c.setState k.beginCycle).machine := by
  refine .set fun o ho => ?_
  rw [state_ok_iff.mp hk] at ho
  cases ho
  exact .continuation rfl rfl

/-- Wrapping up fails without a change. -/
theorem finish_failed (h : c.finish = (.error e, c')) : c' = c := by
  unfold finish at h
  split at h
  · exact (Prod.mk.inj h).2.symm
  · split at h
    · exact (Prod.mk.inj h).2.symm
    · cases (Prod.mk.inj h).1

/-- **An execution that fails** is running code, from the machine that it started on to the one it
left. -/
theorem execute_proceeds (hk : c.state = .ok k) (hfails : c.execute = (.error e, c')) :
    c.machine.Proceeds c'.machine ∧ c'.continuation = c.continuation := by
  have hname : MemberName.run ≠ .create := by decide
  have hbegun := setState_proceeds hk
  simp only [execute, executeWithin, hk] at hfails
  split at hfails
  · cases hfails
    exact ⟨hbegun, rfl⟩
  · rename_i owner fields _
    have hinvoke : Run.Leads .none True Run.Definite (Run.invokeWithin c.machine.maxSteps .virtual
        (entryPoint owner) [.ref c.object, .ref c.continuation]) (c.setState k.beginCycle).machine :=
      Run.invokeWithin_leads (Discipline.none_kept _) rfl _ .virtual hname (by simp [Run.NoTop])
    have hrun := hinvoke.proceeds
    split at hfails
    · rename_i machine heq
      cases hfails
      refine ⟨hbegun.trans ?_, rfl⟩
      rw [show machine = _ from (congrArg Prod.snd heq).symm]
      exact hrun
    · rename_i machine heq
      cases finish_failed hfails
      refine ⟨hbegun.trans ?_, rfl⟩
      rw [show machine = _ from (congrArg Prod.snd heq).symm]
      exact hrun
  · cases hfails
    exact ⟨hbegun, rfl⟩

/-! ## What is captured later -/

/-- The elements of an array depend on nothing but the array. -/
theorem elements_congr {α : Type} {m m' : Machine} (want : Value → Option α) {array : Value}
    (h : ∀ r, array = .ref r → m'.object? r = m.object? r) :
    elements m' want array = elements m want array := by
  cases array with
  | ref r => simp only [elements, Machine.objectAt, h r rfl]
  | _ => rfl

/-- Data whose arrays are what they were. -/
theorem captureData_later {v : Value} {d : SavedData Value} (h : c.captureData v = .ok d)
    (hlater : c.machine.Precedes c'.machine) (hsame : c'.continuation = c.continuation)
    (hkeeps : Machine.Keeps (c.machine.dataArrays v) c.machine c'.machine) :
    c'.captureData v = .ok d := by
  cases v with
  | null => exact h
  | ref r =>
    simp only [captureData] at h ⊢
    obtain ⟨o, ho, h⟩ := Except.bind_ok.mp h
    cases o with
    | data arrays =>
      have harrays := objectAt_ok ho
      obtain ⟨o', ho', hevolves⟩ := hlater.objects r _ harrays
      cases hevolves.of_data
      simp only [Machine.dataArrays, harrays] at hkeeps
      have harray : ∀ kind r', arrays.ofKind kind = .ref r' →
          c'.machine.object? r' = c.machine.object? r' := by
        intro kind r' hr'
        have hmem : arrays.ofKind kind ∈ arrays.toList :=
          List.mem_map_of_mem (by cases kind <;> decide)
        exact hkeeps r' (List.mem_filterMap.mpr ⟨_, hmem, by rw [hr']; rfl⟩)
      obtain ⟨objects, hobjects, h⟩ := Except.bind_ok.mp h
      obtain ⟨ints, hints, h⟩ := Except.bind_ok.mp h
      obtain ⟨longs, hlongs, h⟩ := Except.bind_ok.mp h
      obtain ⟨floats, hfloats, h⟩ := Except.bind_ok.mp h
      obtain ⟨doubles, hdoubles, h⟩ := Except.bind_ok.mp h
      rw [← hsame] at h
      exact Except.bind_ok.mpr ⟨_, objectAt_of_some ho', Except.bind_ok.mpr
        ⟨objects, (elements_congr _ (harray .object)).trans hobjects, Except.bind_ok.mpr
        ⟨ints, (elements_congr _ (harray .int)).trans hints, Except.bind_ok.mpr
        ⟨longs, (elements_congr _ (harray .long)).trans hlongs, Except.bind_ok.mpr
        ⟨floats, (elements_congr _ (harray .float)).trans hfloats, Except.bind_ok.mpr
        ⟨doubles, (elements_congr _ (harray .double)).trans hdoubles, h⟩⟩⟩⟩⟩⟩
    | _ => cases h
  | _ => cases h

/-- A lock state is one still, with the monitors that it has now. -/
theorem captureMonitors_later {v : Value} {monitors : List Value}
    (h : c.captureMonitors v = .ok monitors) (hlater : c.machine.Precedes c'.machine) :
    c'.captureMonitors v = .ok ((c'.machine.recorded v).map .ref) := by
  cases v with
  | ref r =>
    obtain ⟨o, ho, h⟩ := Except.bind_ok.mp h
    cases o with
    | lockState l =>
      obtain ⟨o', ho', hevolves⟩ := hlater.objects r _ (objectAt_ok ho)
      obtain ⟨l', rfl⟩ := hevolves.of_lockState
      simp only [captureMonitors, objectAt_of_some ho', Machine.recorded, ho']
      rfl
    | _ => cases h
  | _ => rfl

/-- **A state that is captured later**: all but its monitors is as it was, if its arrays are. -/
theorem captureFrame_later {r : Ref} {f : SavedFrame Value} (h : c.captureFrame r = .ok f)
    (hlater : c.machine.Precedes c'.machine) (hsame : c'.continuation = c.continuation)
    (hkeeps : Machine.Keeps (c.machine.savedArrays r) c.machine c'.machine) :
    c'.captureFrame r = .ok { f with monitors := (c'.machine.savedMonitors r).map .ref } := by
  obtain ⟨o, ho, h⟩ := Except.bind_ok.mp h
  cases o with
  | methodState s =>
    obtain ⟨monitors, hmonitors, h⟩ := Except.bind_ok.mp h
    obtain ⟨locals, hlocals, h⟩ := Except.bind_ok.mp h
    obtain ⟨stack, hstack, h⟩ := Except.bind_ok.mp h
    cases h
    have hstate := objectAt_ok ho
    obtain ⟨o', ho', hevolves⟩ := hlater.objects r _ hstate
    cases hevolves.of_methodState
    simp only [Machine.savedArrays, hstate] at hkeeps
    have hlocals' := captureData_later hlocals hlater hsame fun r' hr' =>
      hkeeps r' (List.mem_append_left _ hr')
    have hstack' := captureData_later hstack hlater hsame fun r' hr' =>
      hkeeps r' (List.mem_append_right _ hr')
    simp only [captureFrame, objectAt_of_some ho', bind, Except.bind,
      captureMonitors_later hmonitors hlater, hlocals', hstack', Machine.savedMonitors, ho']
    rfl
  | _ => cases h

/-- The key of a state never changes. -/
theorem captureFrame_key {r : Ref} {f f' : SavedFrame Value} (h : c.captureFrame r = .ok f)
    (hlater : c.machine.Precedes c'.machine) (h' : c'.captureFrame r = .ok f') : f'.key = f.key := by
  obtain ⟨-, s, hs, hkey⟩ := captureFrame_captured h
  obtain ⟨-, s', hs', hkey'⟩ := captureFrame_captured h'
  obtain ⟨o, ho, hevolves⟩ := hlater.objects r _ hs
  cases hevolves.of_methodState
  rw [hs'] at ho
  cases ho
  rw [hkey, hkey']

/-! ## The coroutine -/

/-- **A failed execution leaves what was saved.** Whatever program runs and however it fails, the
same states are saved, and the next execution begins with them. A state has the key that it had;
while nobody writes to the arrays that hold its values it also has the same locals and the same
stack, and the monitors that its lock state has now. -/
theorem execute_failed (hk : c.state = .ok k) (hfails : c.execute = (.error e, c')) :
    ∃ k', c'.state = .ok k' ∧ k'.saved = k.saved ∧ k'.beginCycle = k.beginCycle ∧
      ∀ r ∈ k.saved, ∀ f, c.captureFrame r = .ok f →
        (∀ f', c'.captureFrame r = .ok f' → f'.key = f.key) ∧
        (Machine.Keeps (c.machine.savedArrays r) c.machine c'.machine →
          c'.captureFrame r = .ok { f with monitors := (c'.machine.savedMonitors r).map .ref }) := by
  obtain ⟨hproceeds, hsame⟩ := execute_proceeds hk hfails
  obtain ⟨k', hk', hsaved, hfirst⟩ := hproceeds.saved (state_ok_iff.mp hk)
  rw [← hsame] at hk'
  refine ⟨k', state_ok_iff.mpr hk', hsaved, Continuation.beginCycle_congr hsaved hfirst, ?_⟩
  intro r _ f hf
  exact ⟨fun f' hf' => captureFrame_key hf hproceeds.toPrecedes hf',
    captureFrame_later hf hproceeds.toPrecedes hsame⟩

/-! ## A coroutine that leaves a monitor and fails -/

namespace Waiting

/-- Is suspended while it holds a monitor; leaves it when it is resumed, and then divides by zero. -/
def unlocks : Class := classOf sleeper [.pushConstant (.string "lock"), .monitorEnter,
  .load .object 1, .invoke .virtual Interface.Continuation.suspend,
  .pushConstant (.string "lock"), .monitorExit, .pushInt 1, .pushInt 0, .arith .div .int,
  .stack .pop]

/-- A suspended coroutine before and after an execution that fails. -/
def failed (written : Class) : Option (Coroutine × Coroutine) := do
  let (_, c) ← suspended written
  match c.execute with
  | (.error _, c') => return (c, c')
  | _ => none

/-- The outermost state with what is captured of it. -/
def outermost (c : Coroutine) : Option (Ref × SavedFrame Value) := do
  let k ← c.state.toOption
  let r ← k.saved.head?
  let f ← (c.captureFrame r).toOption
  return (r, f)

theorem of_toOption {ε α : Type} {x : Except ε α} {a : α} (h : x.toOption = some a) :
    x = .ok a := by
  cases x with
  | error e => cases h
  | ok b =>
    cases h
    rfl

/-- What is computed of the sample is a failed execution. -/
theorem of_failed {written : Class} (h : failed written = some (c, c')) :
    ∃ e, c.execute = (.error e, c') := by
  obtain ⟨⟨made, d⟩, -, h⟩ := Option.bind_eq_some_iff.mp h
  simp only at h
  split at h
  · rename_i e d' hd
    cases h
    exact ⟨e, hd⟩
  · cases h

/-- What is computed of the sample is its outermost frame. -/
theorem of_outermost {r : Ref} {f : SavedFrame Value} (h : outermost c = some (r, f)) :
    ∃ k, c.state = .ok k ∧ r ∈ k.saved ∧ c.captureFrame r = .ok f := by
  obtain ⟨k, hk, h⟩ := Option.bind_eq_some_iff.mp h
  obtain ⟨r', hr, h⟩ := Option.bind_eq_some_iff.mp h
  obtain ⟨f', hf, h⟩ := Option.bind_eq_some_iff.mp h
  cases h
  exact ⟨k, of_toOption hk, List.mem_of_head? hr, of_toOption hf⟩

/-- The monitors of the outermost state before and after, and whether its arrays are what they
were. -/
def survival (written : Class) : Option (List Value × List Value × Bool) := do
  let (c, c') ← failed written
  let (r, f) ← outermost c
  let f' ← (c'.captureFrame r).toOption
  return (f.monitors, f'.monitors,
    (c.machine.savedArrays r).all fun a => c'.machine.object? a = c.machine.object? a)

/-- What is computed of the sample is its outermost frame before and after a failed execution. -/
theorem of_survival {written : Class} {before after : List Value}
    (h : survival written = some (before, after, true)) :
    ∃ c c' e k r f f', failed written = some (c, c') ∧ c.state = .ok k ∧
      c.execute = (.error e, c') ∧ r ∈ k.saved ∧ c.captureFrame r = .ok f ∧
      c'.captureFrame r = .ok f' ∧ f.monitors = before ∧ f'.monitors = after ∧
      Machine.Keeps (c.machine.savedArrays r) c.machine c'.machine := by
  obtain ⟨⟨c, c'⟩, hfailed, h⟩ := Option.bind_eq_some_iff.mp h
  obtain ⟨⟨r, f⟩, houtermost, h⟩ := Option.bind_eq_some_iff.mp h
  obtain ⟨f', hf', h⟩ := Option.bind_eq_some_iff.mp h
  obtain ⟨e, hfails⟩ := of_failed hfailed
  obtain ⟨k, hk, hr, hf⟩ := of_outermost houtermost
  injection h with h
  injection h with hbefore h
  injection h with hafter hkept
  refine ⟨c, c', e, k, r, f, f', hfailed, hk, hfails, hr, hf, of_toOption hf', hbefore, hafter, ?_⟩
  intro a ha
  exact of_decide_eq_true (List.all_eq_true.mp hkept a ha)

/-- All methods of the sample can be made suspendable. -/
theorem unlocks_made : ∀ m ∈ unlocks.methods, (makeSuspendable .standard
    (unlocks.within Library.hierarchy) unlocks.name m).toOption.join.isSome = true := by
  unfold makeSuspendable MethodPlan.generate
  simp only [withMetadata_eq]
  decide +kernel

/-- The monitor is recorded before the execution, and not after it. -/
theorem survival_unlocks : survival unlocks = some ([.ref ⟨4⟩], [], true) := by
  unfold survival failed suspended suspendableClass
  rw [mapM_draft unlocks_made]
  decide +kernel

end Waiting

open Waiting in
/-- The coroutine can be executed once more, from the same state with the same locals and stack. -/
theorem execute_failed_divides : ∃ c c' e k r f, failed unlocks = some (c, c') ∧
    c.state = .ok k ∧ c.execute = (.error e, c') ∧ r ∈ k.saved ∧ c.captureFrame r = .ok f ∧
    (∃ k', c'.state = .ok k' ∧ k'.saved = k.saved ∧ k'.beginCycle = k.beginCycle) ∧
    c'.captureFrame r = .ok { f with monitors := (c'.machine.savedMonitors r).map .ref } := by
  obtain ⟨c, c', e, k, r, f, -, hfailed, hk, hfails, hr, hf, -, -, -, hkeeps⟩ :=
    of_survival survival_unlocks
  obtain ⟨k', hk', hsaved, hbegin, hframes⟩ := execute_failed hk hfails
  exact ⟨c, c', e, k, r, f, hfailed, hk, hfails, hr, hf, ⟨k', hk', hsaved, hbegin⟩,
    (hframes r hr f hf).2 hkeeps⟩

open Waiting in
/-- The state that is still saved has lost its monitor, which the method left before it failed. -/
theorem execute_failed_unlocks : ∃ c c' e k r f f', failed unlocks = some (c, c') ∧
    c.state = .ok k ∧ c.execute = (.error e, c') ∧ r ∈ k.saved ∧ c.captureFrame r = .ok f ∧
    c'.captureFrame r = .ok f' ∧ f.monitors.length = 1 ∧ f'.monitors = [] := by
  obtain ⟨c, c', e, k, r, f, f', hfailed, hk, hfails, hr, hf, hf', hbefore, hafter, -⟩ :=
    of_survival survival_unlocks
  exact ⟨c, c', e, k, r, f, f', hfailed, hk, hfails, hr, hf, hf', by rw [hbefore]; rfl, hafter⟩

end Coroutine

end Resumption
