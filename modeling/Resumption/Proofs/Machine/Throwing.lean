import Resumption.Proofs.Machine.Bodies
import Resumption.Proofs.Machine.Limits
import Resumption.Proofs.Machine.Paths

/-!
# Exceptions that leave a method

Where an exception goes that an instruction throws:

* **`Passes`** says that a handler leaves an exception alone: it does not cover the
  instruction, or it catches other types.
* **`Reaches.caught`**: handlers that leave it alone are passed, and one behind them that catches
  everything is gone to.
* **`Throws`** is a path that ends abruptly; **`throws_of_passes`** is its last step when an
  exception leaves the method.
* **`Throws.runFor`**: running the method ends in the same way, if it may take enough steps.
-/

namespace Resumption

namespace Body

/-- Does a handler leave an exception of the class alone, at an instruction? -/
def Passes (m : Machine) (index : Nat) (thrown : ClassName)
    (handler : HandlerRange × Option ClassName) : Prop :=
  handler.1.covers index = true →
    ∃ caught, handler.2 = some caught ∧ m.hierarchy.isSubclass thrown caught = .ok false

variable {callees : Callees} {body : Body} {a b : Activation} {m m' m'' : Machine} {r : Ref}
  {thrown : ClassName} {index : Nat}

/-- Handlers that leave the exception alone are passed. -/
theorem entryFor?_passes {handlers : List (HandlerRange × Option ClassName)}
    (h : ∀ handler ∈ handlers, Passes m index thrown handler)
    (rest : List (HandlerRange × Option ClassName)) :
    entryFor? index (.object thrown) (handlers ++ rest) m =
      entryFor? index (.object thrown) rest m := by
  induction handlers with
  | nil => rfl
  | cons handler handlers ih =>
    obtain ⟨range, caught⟩ := handler
    obtain ⟨hfirst, hrest⟩ := List.forall_mem_cons.mp h
    rw [List.cons_append, ← ih hrest, entryFor?]
    cases hcovers : range.covers index with
    | false => rfl
    | true =>
      obtain ⟨super, rfl, hother⟩ := hfirst hcovers
      have hcatches : catches (some super) (.object thrown) m = .ok false m := by
        simp only [catches, bind, EStateM.bind, get, getThe, MonadStateOf.get, EStateM.get, hother]
        rfl
      simp only [if_true, bind, EStateM.bind, hcatches]
      rfl

/-- The entry of a handler that catches everything. -/
theorem entryFor?_all {range : HandlerRange} (h : range.covers index = true)
    (rest : List (HandlerRange × Option ClassName)) :
    entryFor? index (.object thrown) ((range, none) :: rest) m = .ok (some range.entry) m := by
  simp only [entryFor?, h, if_true, catches, bind, EStateM.bind]
  rfl

/-- An instruction that throws hands the exception to the handlers. -/
theorem advance_throw {i : Instruction} (hget : body.instructions[a.index]? = some i)
    (hexec : Step.execute callees i a m = .error (.exception r) m') {fields : FieldValues}
    (hr : m'.object? r = some (.instance thrown fields)) (entry : Option Nat)
    (hentry : entryFor? a.index (.object thrown) body.handlers m' = .ok entry m') :
    body.advance callees a m =
      match entry with
      | some entry => .ok (.continue { a with stack := [.ref r], index := entry }) m'
      | none => .error (.exception r) m' := by
  have hobject : Run.object r m' = .ok (.instance thrown fields) m' := Run.object_of_some hr
  rw [advance_eq hget, hexec, afterExecute]
  simp only [handle, bind, EStateM.bind, hobject, HeapObject.type, hentry]
  cases entry <;> rfl

/-- An exception that is caught behind handlers that leave it alone. -/
theorem Reaches.caught {i : Instruction} (hget : body.instructions[a.index]? = some i)
    (hexec : Step.execute callees i a m = .error (.exception r) m') {fields : FieldValues}
    (hr : m'.object? r = some (.instance thrown fields))
    {before : List (HandlerRange × Option ClassName)} {range : HandlerRange}
    (hhandlers : body.handlers = before ++ [(range, none)])
    (hpasses : ∀ handler ∈ before, Passes m' a.index thrown handler)
    (hcovers : range.covers a.index = true) :
    Reaches callees body a m (a.placed [.ref r] range.entry) m' := by
  refine .single (advance_throw hget hexec hr (some range.entry) ?_)
  rw [hhandlers, entryFor?_passes hpasses, entryFor?_all hcovers]

/-- A path that ends abruptly: with an exception that leaves the method, or a failure. -/
def Throws (callees : Callees) (body : Body) (a : Activation) (m : Machine) (e : Abrupt)
    (m' : Machine) : Prop :=
  ∃ b m'', Reaches callees body a m b m'' ∧ body.advance callees b m'' = .error e m'

theorem Reaches.throws {e : Abrupt} (h : Reaches callees body a m b m')
    (hthrows : Throws callees body b m' e m'') : Throws callees body a m e m'' := by
  obtain ⟨c, m₁, hreaches, hadvance⟩ := hthrows
  exact ⟨c, m₁, h.trans hreaches, hadvance⟩

/-- An exception that all handlers leave alone. -/
theorem throws_of_passes {i : Instruction} (hget : body.instructions[a.index]? = some i)
    (hexec : Step.execute callees i a m = .error (.exception r) m') {fields : FieldValues}
    (hr : m'.object? r = some (.instance thrown fields))
    (hpasses : ∀ handler ∈ body.handlers, Passes m' a.index thrown handler) :
    Throws callees body a m (.exception r) m' := by
  refine ⟨a, m, .refl a m, advance_throw hget hexec hr none ?_⟩
  rw [← List.append_nil body.handlers, entryFor?_passes hpasses]
  rfl

/-- **Running a method that throws** ends in the same way, with as many steps as it takes or more. -/
theorem Throws.runFor {e : Abrupt} (h : Throws callees body a m e m') :
    ∃ enough, ∀ limit steps, enough ≤ steps → body.runFor callees limit steps a m = .error e m' := by
  obtain ⟨b, m₁, hreaches, hadvance⟩ := h
  obtain ⟨n, hn⟩ := hreaches.runFor_eq
  refine ⟨n + 1, fun limit steps hsteps => ?_⟩
  obtain ⟨steps, rfl⟩ := Nat.exists_eq_add_of_le' hsteps
  rw [show steps + (n + 1) = steps + 1 + n by omega, hn]
  simp only [Body.runFor, bind, EStateM.bind, hadvance]

end Body

end Resumption
