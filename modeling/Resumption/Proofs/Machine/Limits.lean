import Resumption.Proofs.Machine.Straight

/-!
# Limits on runs

A run is limited in the steps of its activations and in how deep calls nest. A run that stays within
its limits does not depend on them: with wider limits it is the same.

* **`Run.Below`** orders computations: the first one fails, or it is the second one.
* **`Step.execute_below`**, **`Body.advance_below`** and **`Body.runFor_below`**: an instruction, a step
  and an activation are ordered as what they call.
* **`runMethod_below`**: so are methods with more steps and deeper calls, by induction on the depth.
* **`Body.Reaches.mono`**: a path is one whatever else would have been called.
-/

namespace Resumption

namespace Run

variable {α β : Type} {x y z : Run α} {f g : α → Run β} {m m' : Machine}

/-- The first computation fails where it is not the second one. -/
def Below (x y : Run α) : Prop := ∀ m, x m = y m ∨ ∃ e m', x m = .error (.failure e) m'

namespace Below

/-- A computation is below itself. -/
theorem refl (x : Run α) : Below x x := fun _ => .inl rfl

/-- A failure is below everything. -/
theorem fail {e : RunError} : Below (Run.fail e) y := fun m => .inr ⟨e, m, rfl⟩

/-- One computation after the other is below if both are. -/
theorem bind (h : Below x y) (hf : ∀ v, Below (f v) (g v)) : Below (x >>= f) (y >>= g) := by
  intro m
  simp only [Bind.bind, EStateM.bind]
  rcases h m with heq | ⟨e, m', heq⟩
  · rw [heq]
    cases y m with
    | ok v m' => exact hf v m'
    | error e m' => exact .inl rfl
  · rw [heq]
    exact .inr ⟨e, m', rfl⟩

/-- What looks at the machine is below if it is for each machine. -/
theorem get_bind {f g : Machine → Run α} (h : ∀ m, Below (f m) (g m)) :
    Below (get >>= f) (get >>= g) := bind (.refl _) h

/-- Dropping results keeps computations below. -/
theorem discard (h : Below x y) : Below (discard x) (discard y) := by
  rw [discard_eq_bind, discard_eq_bind]
  exact h.bind fun _ => .refl _

/-- What does not fail is the same. -/
theorem eq_of (h : Below x y) {r : EStateM.Result Abrupt Machine α} (hx : x m = r)
    (hr : ∀ e m', r ≠ .error (.failure e) m') : y m = r := by
  rcases h m with heq | ⟨e, m', heq⟩
  · exact heq.symm.trans hx
  · exact absurd (hx.symm.trans heq) (hr e m')

end Below

end Run

open Run (Below)

/-! ## Calls -/

/-- Runners whose runs are ordered. -/
def MethodRunner.Below (run run' : MethodRunner) : Prop :=
  ∀ owner method arguments, Run.Below (run owner method arguments) (run' owner method arguments)

/-- Others whose answers are ordered. -/
structure Callees.Below (callees callees' : Callees) : Prop where
  /-- what is called -/
  call : ∀ kind method arguments,
    Run.Below (callees.call kind method arguments) (callees'.call kind method arguments)
  /-- what is made ready -/
  prepare : ∀ name, Run.Below (callees.prepare name) (callees'.prepare name)

namespace Run

variable {run run' : MethodRunner}

/-- More steps prepare a class as fewer do. -/
theorem prepare_below (hrun : run.Below run') (levels : Nat) (name : ClassName) :
    Below (prepare run levels name) (prepare run' levels name) := by
  induction levels generalizing name with
  | zero => exact .refl _
  | succ levels ih =>
    refine .get_bind fun m => ?_
    split
    · exact .refl _
    cases m.class? name with
    | none => exact .refl _
    | some c =>
      refine .bind (.refl _) fun _ => ?_
      cases c.superclass with
      | none =>
        refine .bind (.refl _) fun _ => ?_
        cases c.methods.find? (·.name = .classInit) with
        | none => exact .refl _
        | some method => exact (hrun c method []).discard
      | some super =>
        refine .bind (ih super) fun _ => .bind (.refl _) fun _ => ?_
        cases c.methods.find? (·.name = .classInit) with
        | none => exact .refl _
        | some method => exact (hrun c method []).discard

/-- More steps initialize a class as fewer do. -/
theorem ensureReady_below (hrun : run.Below run') (name : ClassName) :
    Below (ensureReady run name) (ensureReady run' name) :=
  .get_bind fun _ => prepare_below hrun _ name

/-- More steps start a class as fewer do. -/
theorem startClass_below (hrun : run.Below run') (kind : CallKind) (method : MethodRef)
    (arguments : List Value) :
    Below (startClass run kind method arguments) (startClass run' kind method arguments) := by
  cases kind with
  | static => exact .bind (ensureReady_below hrun _) fun _ => .refl _
  | _ => exact .refl _

/-- More steps call as fewer do. -/
theorem call_below (hrun : run.Below run') (kind : CallKind) (method : MethodRef)
    (arguments : List Value) :
    Below (call run kind method arguments) (call run' kind method arguments) := by
  refine .get_bind fun m => ?_
  cases m.natives.lookup method with
  | some native => exact .refl _
  | none =>
    refine .bind (startClass_below hrun kind method arguments) fun start => .get_bind fun m => ?_
    dsimp only
    cases implementation? m.classes method.name method.descriptor (m.classes.length + 1) start with
    | some found => exact hrun found.1 found.2 arguments
    | none => exact .refl _

/-- More steps answer an activation as fewer do. -/
theorem callees_below (hrun : run.Below run') : (callees run).Below (callees run') :=
  ⟨call_below hrun, ensureReady_below hrun⟩

end Run

/-! ## Steps -/

namespace Step

variable {α β : Type} {callees callees' : Callees}

/-- Steps of an activation that are ordered as computations. -/
def Below (x y : Step α) : Prop := ∀ a, Run.Below (x a) (y a)

/-- A computation of an activation is below itself. -/
theorem Below.refl (x : Step α) : Below x x := fun _ => .refl _

/-- One computation of an activation after the other is below if both are. -/
theorem Below.bind {x y : Step α} {f g : α → Step β} (h : Below x y) (hf : ∀ v, Below (f v) (g v)) :
    Below (x >>= f) (y >>= g) := fun a => (h a).bind fun r => hf r.1 r.2

/-- What is below on a machine is below inside of an activation. -/
theorem Below.lift {x y : Run α} (h : Run.Below x y) : Below (lift x) (lift y) :=
  fun _ => h.bind fun _ => .refl _

/-- Going on keeps computations below. -/
theorem Below.andNext {x y : Step Unit} (h : Below x y) : Below (andNext x) (andNext y) :=
  h.bind fun _ => .refl _

/-- **An instruction** asks others at most once, and goes on with the answer. -/
theorem execute_below (h : callees.Below callees') (i : Instruction) :
    Below (execute callees i) (execute callees' i) := by
  cases i with
  | invoke kind method =>
    exact .andNext (.bind (.refl _) fun _ => .bind (.lift (h.call _ _ _)) fun _ => .refl _)
  | getStatic field => exact .andNext (.bind (.lift (h.prepare _)) fun _ => .refl _)
  | putStatic field => exact .andNext (.bind (.lift (h.prepare _)) fun _ => .refl _)
  | new owner => exact .andNext (.bind (.lift (h.prepare _)) fun _ => .refl _)
  | pushConstant c => cases c <;> exact .refl _
  | _ => exact .refl _

end Step

/-! ## Activations -/

namespace Body

variable {callees callees' : Callees} {body : Body} {a b : Activation} {m m' : Machine}

/-- **A step.** Failures are not caught. -/
theorem advance_below (h : callees.Below callees') (a : Activation) :
    Run.Below (body.advance callees a) (body.advance callees' a) := by
  intro m
  cases hget : body.instructions[a.index]? with
  | none =>
    refine .inl ?_
    simp only [advance, hget]
  | some i =>
    rw [advance_eq hget, advance_eq hget]
    rcases Step.execute_below h i a m with heq | ⟨e, m', heq⟩
    · exact .inl (by rw [heq])
    · exact .inr ⟨e, m', by rw [heq, afterExecute]⟩

/-- **An activation**, with as many steps or more. -/
theorem runFor_below (h : callees.Below callees') {limit limit' steps steps' : Nat}
    (hsteps : steps ≤ steps') (a : Activation) :
    Run.Below (body.runFor callees limit steps a) (body.runFor callees' limit' steps' a) := by
  induction steps generalizing steps' a with
  | zero => exact .fail
  | succ steps ih =>
    obtain ⟨steps', rfl⟩ := Nat.exists_eq_add_of_le' (Nat.succ_pos steps |>.trans_le hsteps)
    refine .bind (advance_below h a) fun next => ?_
    cases next with
    | «continue» b => exact ih (Nat.le_of_succ_le_succ hsteps) b
    | «return» v => exact .refl _

/-- A path stays one when others answer more. -/
theorem Reaches.mono (h : callees.Below callees') (hreaches : Reaches callees body a m b m') :
    Reaches callees' body a m b m' := by
  induction hreaches with
  | refl => exact .refl _ _
  | step first _ ih =>
    exact .step ((advance_below h _).eq_of first fun _ _ heq => by cases heq) ih

end Body

/-- **Methods.** With more steps for each activation, and deeper calls, a run that does not fail is the
same. -/
theorem runMethod_below {limit limit' depth depth' : Nat} (hlimit : limit ≤ limit')
    (hdepth : depth ≤ depth') : (runMethod limit depth).Below (runMethod limit' depth') := by
  intro owner method arguments
  -- by induction on the depth of calls; within an activation `runFor_below` does the induction on
  -- its steps
  induction depth generalizing depth' owner method arguments with
  | zero => exact fun m => .inr ⟨_, m, rfl⟩
  | succ depth ih =>
    obtain ⟨depth', rfl⟩ := Nat.exists_eq_add_of_le' (Nat.succ_pos depth |>.trans_le hdepth)
    simp only [runMethod]
    cases method.code with
    | none => exact .refl _
    | some c =>
      simp only
      cases Body.ofCode c with
      | error e => exact .refl _
      | ok body =>
        exact Body.runFor_below
          (Run.callees_below fun owner method arguments =>
            ih (Nat.le_of_succ_le_succ hdepth) owner method arguments) hlimit _

end Resumption
