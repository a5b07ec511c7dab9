import Resumption.Proofs.Machine.Quiet

/-!
# What happens in a run

The interpreter says how a run ends. Here it says what happens on the way as well: every step that an
activation is about to take, at any depth of calls, and every native that has done its work.

* **`Logged`** is a computation together with what happens in it. The interpreter is written down
  once more for it, method by method.
* **`runMethod_run`** and **`invoke_run`**: what is logged are the runs of the interpreter, since the
  results and the machines are those of the interpreter.
-/

namespace Resumption

variable {α β : Type}

/-- What happens in a run. -/
inductive Event where
  /-- an activation is about to take a step -/
  | step (body : Body) (a : Activation) (m : Machine)
  /-- a native has done its work -/
  | done (native : Native)

/-- A computation on a machine, and what happens in it, first things first. -/
structure Logged (α : Type) where
  /-- what is computed -/
  run : Run α
  /-- what happens on the way -/
  events : Machine → List Event

namespace Logged

/-- What happens after a computation, if it has a result. -/
def afterwards (x : Run α) (f : α → Logged β) (m : Machine) : List Event :=
  match x m with
  | .ok a m' => (f a).events m'
  | .error _ _ => []

instance : Monad Logged where
  pure a := ⟨pure a, fun _ => []⟩
  bind x f := ⟨x.run >>= fun a => (f a).run, fun m => x.events m ++ afterwards x.run f m⟩

/-- A computation in which nothing happens. -/
instance : MonadLift Run Logged where
  monadLift x := ⟨x, fun _ => []⟩

@[simp] theorem run_pure (a : α) : (pure a : Logged α).run = pure a := rfl

@[simp] theorem run_bind (x : Logged α) (f : α → Logged β) :
    (x >>= f).run = x.run >>= fun a => (f a).run := rfl

@[simp] theorem run_lift (x : Run α) : (liftM x : Logged α).run = x := rfl

@[simp] theorem run_get : (get : Logged Machine).run = get := rfl

@[simp] theorem run_modify (f : Machine → Machine) : (modify f : Logged Unit).run = modify f := rfl

theorem run_discard (x : Logged α) : (discard x).run = discard x.run := by
  rw [discard_eq_bind x.run]
  rfl

end Logged

/-- Runs a method of a class with its arguments, with what happens in it. -/
abbrev MethodLogger := Class → Method → List Value → Logged (Option Value)

/-- The runner without its log. -/
def MethodLogger.runner (run : MethodLogger) : MethodRunner := fun owner method arguments =>
  (run owner method arguments).run

namespace Logged

/-! ## The interpreter, with a log -/

/-- Makes the classes above a class ready, and then the class itself; each one once. -/
def prepare (run : MethodLogger) : (levels : Nat) → ClassName → Logged Unit
  | 0, _ => return ()
  | levels + 1, name => do
    let m ← get
    if m.initialized.contains name then return
    match m.class? name with
    | none => return ()
    | some c =>
      modify fun m => { m with initialized := name :: m.initialized }
      match c.superclass with
      | some super => prepare run levels super
      | none => pure ()
      modify fun m => { m with statics := Run.zeroStatics c m.statics }
      match c.methods.find? (·.name = .classInit) with
      | some method => discard (run c method [])
      | none => pure ()

/-- Makes a class ready, with levels enough for all classes. -/
def ensureReady (run : MethodLogger) (name : ClassName) : Logged Unit := do
  prepare run ((← get).classes.length + 1) name

/-- Where the method of a call is looked for, once that class is ready. -/
def startClass (run : MethodLogger) (kind : CallKind) (method : MethodRef)
    (arguments : List Value) : Logged ClassName := do
  match kind with
  | .static =>
    ensureReady run method.owner
    return method.owner
  | .special =>
    let _ ← Run.receiver arguments
    return method.owner
  | .virtual | .interface =>
    match ← Run.object (← Run.receiver arguments) with
    | .instance owner _ => return owner
    | _ => return method.owner

/-- A native, which has done its work if it has a result. -/
def native (native : Native) (arguments : List Value) : Logged (Option Value) where
  run := native.run arguments
  events m :=
    match native.run arguments m with
    | .ok _ _ => [.done native]
    | .error _ _ => []

/-- Calls a native method, or a method with code. -/
def call (run : MethodLogger) (kind : CallKind) (method : MethodRef) (arguments : List Value) :
    Logged (Option Value) := do
  match (← get).natives.lookup method with
  | some found => native found arguments
  | none =>
    let start ← startClass run kind method arguments
    let classes := (← get).classes
    match Run.implementation? classes method.name method.descriptor (classes.length + 1) start with
    | some (owner, found) => run owner found arguments
    | none =>
      if method.name = .init then
        Run.libraryConstructor arguments
        return none
      else (Run.fail (.noSuchMethod method.pretty) : Run (Option Value))

/-- A step, and what happens in what its instruction asks of others. -/
def advance (run : MethodLogger) (body : Body) (a : Activation) : Logged Body.Next where
  run := body.advance (Run.callees run.runner) a
  events m := .step body a m ::
    match body.instructions[a.index]? with
    | some i => (a.ask (call run) (ensureReady run) i).events m
    | none => []

/-- Runs an activation for a number of steps. Those that are left out are logged all the same. -/
def runFor (run : MethodLogger) (body : Body) (limit : Nat) :
    (steps : Nat) → Activation → Logged (Option Value)
  | 0, a => ⟨Run.fail (.stepLimit limit), fun m => [.step body a m]⟩
  | steps + 1, a => do
    match ← advance run body a with
    | .continue a => runFor run body limit steps a
    | .return v => return v

/-- Runs methods, up to a depth of activations. -/
def runMethod (limit : Nat) : (depth : Nat) → MethodLogger
  | 0 => fun _ _ _ => do
    let m ← get
    (Run.fail (.stackOverflow m.maxDepth) : Run (Option Value))
  | depth + 1 => fun owner method arguments => do
    let name := s!"{owner.name.text}.{method.signature}"
    match method.code with
    | none => (Run.fail (.noSuchMethod name) : Run (Option Value))
    | some c =>
      match Body.ofCode c with
      | .error e => (Run.fail (.code (.ofLabel e)) : Run (Option Value))
      | .ok body =>
        runFor (runMethod limit depth) body limit limit
          { method := name, locals := argumentLocals arguments, stack := [], index := 0 }

/-- A call from outside, with a bound on the steps of every activation. -/
def invokeWithin (limit : Nat) (kind : CallKind) (method : MethodRef) (arguments : List Value) :
    Logged (Option Value) := do
  call (runMethod limit (← get).maxDepth) kind method arguments

/-- A call from outside, with the bound that the machine gives. -/
def invoke (kind : CallKind) (method : MethodRef) (arguments : List Value) :
    Logged (Option Value) := do
  invokeWithin (← get).maxSteps kind method arguments

/-- Makes an instance and runs its constructor. -/
def construct (owner : ClassName) : Logged Ref := do
  ensureReady (runMethod (← get).maxSteps (← get).maxDepth) owner
  let r ← Run.newInstance owner
  discard (invoke .special ⟨owner, .init, ⟨[], none⟩⟩ [.ref r])
  return r

/-! ## The log is one of the run -/

variable (run : MethodLogger)

theorem prepare_run (levels : Nat) (name : ClassName) :
    (prepare run levels name).run = Run.prepare run.runner levels name := by
  -- recording events changes nothing of what a run does, level by level of superclasses
  induction levels generalizing name with
  | zero => rfl
  | succ levels ih =>
    rw [prepare, Run.prepare, run_bind, run_get]
    congr 1
    funext m
    split
    · rfl
    · cases m.class? name with
      | none => rfl
      | some c =>
        simp only [run_bind, run_modify]
        congr 1
        funext _
        have hinit : ∀ init : Option Method,
            (match init with
              | some method => discard (run c method [])
              | none => pure () : Logged Unit).run =
              match init with
              | some method => discard (run.runner c method [])
              | none => pure () := fun init => by
          cases init with
          | none => rfl
          | some method => exact run_discard _
        cases c.superclass with
        | none =>
          rw [run_bind, run_modify]
          exact congrArg (_ >>= ·) (funext fun _ => hinit _)
        | some super =>
          rw [run_bind, ih]
          refine congrArg (_ >>= ·) (funext fun _ => ?_)
          rw [run_bind, run_modify]
          exact congrArg (_ >>= ·) (funext fun _ => hinit _)

theorem ensureReady_run (name : ClassName) :
    (ensureReady run name).run = Run.ensureReady run.runner name := by
  rw [ensureReady, Run.ensureReady, run_bind, run_get]
  congr 1
  funext m
  exact prepare_run run _ name

theorem startClass_run (kind : CallKind) (method : MethodRef) (arguments : List Value) :
    (startClass run kind method arguments).run = Run.startClass run.runner kind method arguments := by
  cases kind with
  | static =>
    simp only [startClass, Run.startClass, run_bind, ensureReady_run]
    rfl
  | special => rfl
  | virtual | interface =>
    simp only [startClass, Run.startClass, run_bind, run_lift]
    congr 1
    funext r
    congr 1
    funext o
    cases o <;> rfl

theorem call_run (kind : CallKind) (method : MethodRef) (arguments : List Value) :
    (call run kind method arguments).run = Run.call run.runner kind method arguments := by
  rw [call, Run.call, run_bind, run_get]
  congr 1
  funext m
  cases m.natives.lookup method with
  | some found => rfl
  | none =>
    simp only [run_bind, startClass_run, run_get]
    congr 1
    funext start
    congr 1
    funext m
    cases Run.implementation? m.classes method.name method.descriptor (m.classes.length + 1) start with
    | some found => rfl
    | none =>
      simp only
      split <;> rfl

theorem ask_run (a : Activation) (i : Instruction) :
    (a.ask (call run) (ensureReady run) i).run = (Run.callees run.runner).answer a i := by
  cases i with
  | invoke kind ref =>
    simp only [Callees.answer, Activation.ask, Run.callees]
    split
    · exact call_run run _ _ _
    · rfl
  | getStatic _ | putStatic _ | new _ =>
    simp only [Callees.answer, Activation.ask, Run.callees, run_bind, ensureReady_run]
    rfl
  | _ => rfl

theorem runFor_run (body : Body) (limit steps : Nat) (a : Activation) :
    (runFor run body limit steps a).run =
      body.runFor (Run.callees run.runner) limit steps a := by
  induction steps generalizing a with
  | zero => rfl
  | succ steps ih =>
    rw [runFor, Body.runFor, run_bind]
    congr 1
    funext next
    cases next with
    | «continue» a => exact ih a
    | «return» v => rfl

/-- **Methods.** -/
theorem runMethod_run (limit depth : Nat) :
    (runMethod limit depth).runner = Resumption.runMethod limit depth := by
  induction depth with
  | zero => rfl
  | succ depth ih =>
    funext owner method arguments
    simp only [MethodLogger.runner, runMethod, Resumption.runMethod]
    cases method.code with
    | none => rfl
    | some c =>
      simp only
      cases Body.ofCode c with
      | error e => rfl
      | ok body =>
        simp only [runFor_run, ih]

theorem invoke_run (kind : CallKind) (method : MethodRef) (arguments : List Value) :
    (invoke kind method arguments).run = Run.invoke kind method arguments := by
  simp only [invoke, Run.invoke, invokeWithin, Run.invokeWithin, run_bind, run_get, call_run,
    runMethod_run]

theorem construct_run (owner : ClassName) : (construct owner).run = Run.construct owner := by
  simp only [construct, Run.construct, run_bind, run_get, run_lift, run_pure, run_discard,
    ensureReady_run, invoke_run, runMethod_run]

end Logged

end Resumption
