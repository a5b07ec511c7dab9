import Mathlib
import Resumption.Machine.Interpreter

/-!
# What a step asks of the machine

Most of what instructions do to a machine is mild (`Run.Mild`), in two ways.

* It never ends with a fault. A fault is a failure that is the code's own: it took from an empty
  stack, found a value of another kind, or went where no instruction is. Only steps of an activation
  find faults.
* It leaves the counts of an allocator alone, which only the methods of the allocator change.
-/

namespace Resumption

/-- Is the failure a fault of the code? -/
def RunError.IsFault : RunError → Prop
  | .badCode .. => True
  | _ => False

namespace Run

variable {α β : Type}

/-- The machine that a computation leaves, however it ends. -/
def left : EStateM.Result Abrupt Machine α → Machine
  | .ok _ m => m
  | .error _ m => m

/-- The computation never ends with a fault of the code, and leaves the counts of an allocator as
they are. -/
structure Mild (x : Run α) : Prop where
  /-- it never fails like code that cannot be executed -/
  faultless : ∀ m e m', x m = .error (.failure e) m' → ¬ e.IsFault
  /-- the allocator is left alone -/
  pool : ∀ m, (left (x m)).pool = m.pool

namespace Mild

/-! ## Rules -/

/-- A value is mild. -/
theorem pure (a : α) : Mild (Pure.pure a : Run α) := ⟨fun _ _ _ h => (by cases h), fun _ => rfl⟩

/-- One mild computation after the other is mild. -/
theorem bind {x : Run α} {f : α → Run β} (hx : Mild x) (hf : ∀ a, Mild (f a)) :
    Mild (x >>= f) := by
  refine ⟨fun m e m' h => ?_, fun m => ?_⟩
  · simp only [Bind.bind, EStateM.bind] at h
    split at h
    · exact (hf _).faultless _ e m' h
    · rename_i hfailed
      cases h
      exact hx.faultless m e m' hfailed
  · have hpool := hx.pool m
    simp only [Bind.bind, EStateM.bind]
    cases hxm : x m with
    | ok a m₁ =>
      rw [hxm] at hpool
      exact ((hf a).pool m₁).trans hpool
    | error e m₁ =>
      rw [hxm] at hpool
      exact hpool

/-- Looking at the machine is mild. -/
theorem get : Mild (MonadState.get : Run Machine) := ⟨fun _ _ _ h => (by cases h), fun _ => rfl⟩

/-- A change that leaves the counts of allocators alone is mild. -/
theorem modifyGet {f : Machine → α × Machine} (hf : ∀ m, (f m).2.pool = m.pool) :
    Mild (MonadState.modifyGet f : Run α) :=
  ⟨fun _ _ _ h => (by cases h), hf⟩

/-- Throwing an exception is mild. -/
theorem exception (r : Ref) : Mild (MonadExcept.throw (Abrupt.exception r) : Run α) :=
  ⟨fun _ _ _ h => (by cases h), fun _ => rfl⟩

/-- A failure that is no fault is mild. -/
theorem fail {e : RunError} (he : ¬ e.IsFault) : Mild (Run.fail e : Run α) := by
  refine ⟨fun m e' m' h => ?_, fun _ => rfl⟩
  cases h
  exact he

/-! ## The heap -/

theorem object (r : Ref) : Mild (Run.object r) := by
  refine bind get fun m => ?_
  cases m.object? r with
  | some o => exact pure o
  | none => exact fail nofun

theorem alloc (o : HeapObject) : Mild (Run.alloc o) := modifyGet fun _ => rfl

theorem intern (s : String) : Mild (Run.intern s) := by
  refine modifyGet fun m => ?_
  simp only [Machine.intern]
  split
  · rfl
  · rfl

theorem setObject (r : Ref) (o : HeapObject) : Mild (Run.setObject r o) := modifyGet fun _ => rfl

theorem newThrowable (owner : ClassName) (message : String) :
    Mild (Run.newThrowable owner message) :=
  bind (intern message) fun _ => alloc _

/-- Raising an exception is mild. -/
theorem raise (owner : ClassName) (message : String) : Mild (Run.raise owner message : Run α) :=
  bind (newThrowable owner message) fun r => exception r

theorem nonNull (r : Option Ref) : Mild (Run.nonNull r) := by
  cases r with
  | some r => exact pure r
  | none => exact raise _ _

/-- Questions about the hierarchy are mild. -/
theorem liftKnown (x : Known α) : Mild (Run.liftKnown x) := by
  cases x with
  | ok a => exact pure a
  | error e => exact fail nofun

theorem isInstance (r : Ref) (type : RefType) : Mild (Run.isInstance r type) := by
  refine bind (object r) fun o => bind get fun m => ?_
  cases o.type <;> cases type <;> exact liftKnown _

theorem instanceFields (r : Ref) : Mild (Run.instanceFields r) := by
  refine bind (object r) fun o => ?_
  cases o with
  | «instance» owner fields => exact pure _
  | _ => exact fail nofun

theorem getField (r : Ref) (field : FieldRef) : Mild (Run.getField r field) :=
  bind (instanceFields r) fun _ => pure _

theorem putField (r : Ref) (field : FieldRef) (v : Value) : Mild (Run.putField r field v) :=
  bind (instanceFields r) fun _ => setObject _ _

theorem getStatic (field : FieldRef) : Mild (Run.getStatic field) := bind get fun _ => pure _

theorem putStatic (field : FieldRef) (v : Value) : Mild (Run.putStatic field v) :=
  modifyGet fun _ => rfl

theorem newInstance (owner : ClassName) : Mild (Run.newInstance owner) :=
  bind get fun _ => alloc _

theorem checkCast (v : Value) (type : RefType) : Mild (Run.checkCast v type) := by
  cases v with
  | ref r =>
    refine bind (isInstance r type) fun b => ?_
    cases b with
    | true => exact pure ()
    | false => exact bind (object r) fun _ => raise _ _
  | _ => exact pure ()

theorem enterMonitor (r : Ref) : Mild (Run.enterMonitor r) := modifyGet fun _ => rfl

theorem exitMonitor (r : Ref) : Mild (Run.exitMonitor r) := by
  refine bind get fun m => ?_
  cases m.monitors.exit? r with
  | some monitors => exact modifyGet fun _ => rfl
  | none => exact raise _ _

/-! ## Arrays -/

theorem elements (r : Ref) : Mild (Run.elements r) := by
  refine bind (object r) fun o => ?_
  cases o with
  | array type values => exact pure _
  | _ => exact fail nofun

theorem position (index : Int32) (length : Nat) : Mild (Run.position index length) := by
  simp only [Run.position]
  split
  · exact pure _
  · exact raise _ _

theorem arrayElement (array : Option Ref) (index : Int32) :
    Mild (Run.arrayElement array index) :=
  bind (nonNull array) fun r => bind (elements r) fun _ => bind (position _ _) fun _ => pure _

theorem setArrayElement (array : Option Ref) (index : Int32) (v : Value) :
    Mild (Run.setArrayElement array index v) :=
  bind (nonNull array) fun r => bind (elements r) fun _ => bind (position _ _) fun _ =>
    setObject _ _

theorem arrayLength (r : Ref) : Mild (Run.arrayLength r) := bind (elements r) fun _ => pure _

/-- Allocating zeros is mild. -/
theorem allocateZeros (type : RefType) (count : Int32) :
    Mild (match type.element? with
      | none => Run.fail (.unsupported (.arrayOf type))
      | some element =>
        Run.alloc (.array type (Array.replicate count.toInt.toNat (Value.zero element)))) := by
  cases type.element? with
  | none => exact fail nofun
  | some element => exact alloc _

theorem allocateArray (type : RefType) (count : Int32) :
    Mild (Run.allocateArray type count) := by
  simp only [Run.allocateArray]
  split
  · exact bind (raise _ _) fun _ => allocateZeros type count
  · exact allocateZeros type count

/-- What is mild stays so any number of times. -/
theorem repeated {x : Run α} (hx : Mild x) (n : Nat) : Mild (Run.repeated x n) := by
  induction n with
  | zero => exact pure _
  | succ n ih => exact bind hx fun _ => bind ih fun _ => pure _

/-- Allocating nested arrays is mild. -/
theorem allocateArrays (type : RefType) (counts : List Int32) :
    Mild (Run.allocateArrays type counts) := by
  induction counts generalizing type with
  | nil => exact fail nofun
  | cons count rest ih =>
    cases rest with
    | nil => exact allocateArray type count
    | cons next rest =>
      refine bind (allocateArray type count) fun r => ?_
      split
      · exact bind (repeated (ih _) _) fun _ => bind (setObject _ _) fun _ => pure _
      · exact fail nofun

end Mild

end Run

/-! ## Handlers -/

namespace Body

open Run (Mild)

/-- Asking whether a handler catches is mild. -/
theorem catches_mild (caught : Option ClassName) (thrown : RefType) :
    Mild (catches caught thrown) := by
  cases caught with
  | none => exact .pure true
  | some super =>
    cases thrown with
    | object sub => exact .bind .get fun _ => .liftKnown _
    | _ => exact .pure false

/-- Looking for a handler is mild. -/
theorem entryFor?_mild (index : Nat) (thrown : RefType)
    (handlers : List (HandlerRange × Option ClassName)) :
    Mild (entryFor? index thrown handlers) := by
  induction handlers with
  | nil => exact .pure none
  | cons handler rest ih =>
    obtain ⟨range, caught⟩ := handler
    simp only [entryFor?]
    split
    · refine .bind (catches_mild caught thrown) fun found => ?_
      cases found with
      | true => exact .pure _
      | false => exact ih
    · exact ih

/-- Going to a handler is mild. -/
theorem handle_mild (body : Body) (a : Activation) (r : Ref) : Mild (body.handle a r) := by
  refine .bind (.object r) fun o => .bind (entryFor?_mild _ _ _) fun entry => ?_
  cases entry with
  | some entry => exact .pure _
  | none => exact .exception r

end Body

end Resumption
