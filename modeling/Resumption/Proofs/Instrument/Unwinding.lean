import Resumption.Proofs.Instrument.Rejecting

/-!
# Restores that fail

A coroutine is restored by calling the suspended methods again, from the outermost inwards. When one
of them does not accept its method state, the exception leaves all of them.

* **`Machine.Dispatches`** says which method a call runs.
* **`Doomed`** is such a chain of methods: those before the last are intact, and do not catch the
  exception themselves.
* **`Unwinds`** says how their runs end: the last one undoes the restore, and the others leave
  everything as the last one left it.
* **`Doomed.unwinds`**: this is how they end, with as many steps as that takes or more.
-/

namespace Resumption

/-! ## Calls -/

namespace Machine

/-- Does a call look for the implementation from this class on? -/
def StartsAt (m : Machine) (kind : CallKind) (ref : MethodRef) (arguments : List Value)
    (start : ClassName) : Prop :=
  match kind with
  | .static => start = ref.owner ∧ ref.owner ∈ m.initialized
  | .special => start = ref.owner ∧ ∃ r, arguments.head? = some (.ref r)
  | .virtual | .interface =>
    ∃ r fields, arguments.head? = some (.ref r) ∧ m.object? r = some (.instance start fields)

/-- Does a call run this method? -/
def Dispatches (m : Machine) (kind : CallKind) (ref : MethodRef) (arguments : List Value)
    (owner : Class) (method : Method) : Prop :=
  m.natives.lookup ref = none ∧ ∃ start, m.StartsAt kind ref arguments start ∧
    Run.implementation? m.classes ref.name ref.descriptor (m.classes.length + 1) start =
      some (owner, method)

variable {m m' : Machine} {kind : CallKind} {ref : MethodRef} {arguments : List Value}
  {start : ClassName} {owner : Class} {method : Method} {run : MethodRunner}

theorem StartsAt.later (h : m.StartsAt kind ref arguments start) (hlater : m.Precedes m') :
    m'.StartsAt kind ref arguments start := by
  cases kind with
  | static => exact ⟨h.1, hlater.initialized _ h.2⟩
  | special => exact h
  | virtual | interface =>
    obtain ⟨r, fields, hr, ho⟩ := h
    obtain ⟨o, ho', hevolves⟩ := hlater.objects r _ ho
    obtain ⟨fields', rfl⟩ := hevolves.of_instance
    exact ⟨r, fields', hr, ho'⟩

/-- A call that runs a method runs it later as well. -/
theorem Dispatches.later (h : m.Dispatches kind ref arguments owner method)
    (hlater : m.Precedes m') : m'.Dispatches kind ref arguments owner method := by
  obtain ⟨hnative, start, hstart, hfound⟩ := h
  rw [← hlater.natives] at hnative
  rw [← hlater.classes] at hfound
  exact ⟨hnative, start, hstart.later hlater, hfound⟩

theorem StartsAt.startClass (h : m.StartsAt kind ref arguments start) :
    Run.startClass run kind ref arguments m = .ok start m := by
  cases kind with
  | static =>
    obtain ⟨rfl, hinitialized⟩ := h
    simp only [Run.startClass, bind, EStateM.bind, Body.ensureReady_of_ready (.inr hinitialized)]
    rfl
  | special =>
    obtain ⟨rfl, r, hr⟩ := h
    simp only [Run.startClass, Run.receiver, hr, Option.bind_some, Value.ref?, Run.nonNull, bind,
      EStateM.bind]
    rfl
  | virtual | interface =>
    obtain ⟨r, fields, hr, ho⟩ := h
    simp only [Run.startClass, Run.receiver, hr, Option.bind_some, Value.ref?, Run.nonNull, bind,
      EStateM.bind, pure, EStateM.pure, Run.object_of_some ho]

theorem Dispatches.call (h : m.Dispatches kind ref arguments owner method) :
    Run.call run kind ref arguments m = run owner method arguments m := by
  obtain ⟨hnative, start, hstart, hfound⟩ := h
  simp only [Run.call, bind, EStateM.bind, get, getThe, MonadStateOf.get, EStateM.get, hnative,
    hstart.startClass, hfound]

end Machine

/-- How many values a call takes from the stack. -/
def CallKind.arity (kind : CallKind) (ref : MethodRef) : Nat :=
  ref.descriptor.parameters.length + if kind = .static then 0 else 1

/-! ## Methods that are called again -/

/-- A suspendable method that is called while its coroutine is restored, and the method state that
it takes. -/
structure Restored (settings : Settings) (h : Hierarchy) where
  /-- the class of the method -/
  owner : Class
  /-- the method as written -/
  method : Method
  /-- what was made of it -/
  made : SuspendableMethod
  /-- how its code was generated -/
  generated : Generated settings h owner.name method made
  /-- what it is called with -/
  arguments : List Value
  /-- the state that is loaded -/
  state : Ref

namespace Restored

variable {settings : Settings} {h : Hierarchy} (f : Restored settings h)

/-- The activation that the method starts with. -/
def start : Activation where
  method := s!"{f.owner.name.text}.{f.made.method.signature}"
  locals := argumentLocals f.arguments
  stack := []
  index := 0

/-- Runs the method, with limits on the steps of an activation and on nested calls. -/
def run (limit depth : Nat) (m : Machine) : EStateM.Result Abrupt Machine (Option Value) :=
  runMethod limit depth f.owner f.made.method f.arguments m

theorem run_eq (limit depth : Nat) (m : Machine) :
    f.run limit (depth + 1) m = f.generated.body.runFor (Run.callees (runMethod limit depth)) limit
      limit f.start m := by
  simp only [run, runMethod, f.generated.code_eq, f.generated.body_eq]
  rfl

/-- With more steps a run that is left with an exception is the same. -/
theorem run_mono {limit limit' depth : Nat} {m m' : Machine} {r : Ref} (hlimit : limit ≤ limit')
    (hrun : f.run limit depth m = .error (.exception r) m') :
    f.run limit' depth m = .error (.exception r) m' :=
  (runMethod_below hlimit (Nat.le_refl depth) _ _ _).eq_of hrun fun _ _ heq => by cases heq

/-- A method that throws, called one level above what it calls. -/
theorem run_throws {limit depth : Nat} {m m' : Machine} {r : Ref}
    (hthrows : Body.Throws (Run.callees (runMethod limit depth)) f.generated.body f.start m
      (.exception r) m') :
    ∃ enough, limit ≤ enough ∧ f.run enough (depth + 1) m = .error (.exception r) m' := by
  obtain ⟨n, hn⟩ := hthrows.runFor
  have hbelow : (Run.callees (runMethod limit depth)).Below
      (Run.callees (runMethod (max limit n) depth)) :=
    Run.callees_below (runMethod_below (Nat.le_max_left limit n) (Nat.le_refl depth))
  refine ⟨max limit n, Nat.le_max_left limit n, ?_⟩
  rw [run_eq]
  exact (Body.runFor_below hbelow (Nat.le_refl _) f.start).eq_of
    (hn limit _ (Nat.le_max_right limit n)) fun _ _ heq => by cases heq

end Restored

/-- The items that come next in a list. -/
theorem cons_prefix_drop {α : Type} {xs ys : List α} {x : α} {i : Nat}
    (h : x :: xs <+: ys.drop i) : ys[i]? = some x ∧ xs <+: ys.drop (i + 1) := by
  obtain ⟨tail, htail⟩ := h
  have hget : (ys.drop i)[0]? = some x := by rw [← htail]; rfl
  rw [List.getElem?_drop, Nat.add_zero] at hget
  refine ⟨hget, tail, ?_⟩
  rw [← List.drop_drop, ← htail]
  rfl

/-- Does no handler of the code that covers the instruction catch exceptions of the class? -/
def Code.Unguarded (c : Code) (h : Hierarchy) (index : Nat) (thrown : ClassName) : Prop :=
  ∀ x ∈ c.handlers, c.Guards x index →
    ∃ caught, x.caught = some caught ∧ h.isSubclass thrown caught = .ok false

namespace Generated

variable {settings : Settings} {h : Hierarchy} {owner : ClassName} {method : Method}
  {made : SuspendableMethod} {g : Generated settings h owner method made} {p : SuspendPoint}

theorem Relocks.sameBut {m m' : Machine} {lockState : Value} {cont : Ref} {c : Continuation Ref}
    (hlocks : g.Relocks m lockState) (hc : m.object? cont = some (.continuation c))
    (hsame : m.SameBut cont m') : g.Relocks m' lockState := by
  rw [Relocks] at hlocks ⊢
  by_cases hmonitors : g.plan.code.hasMonitors = true
  · rw [if_pos hmonitors] at hlocks ⊢
    obtain ⟨lock, locks, hlock, ho, hsize⟩ := hlocks
    exact ⟨lock, locks, hlock, hsame.other hc ho rfl, hsize⟩
  · rw [if_neg hmonitors] at hlocks ⊢
    exact hlocks

/-- Where a call is made again is part of the code of its point. -/
theorem Located.bounds (at_ : g.Located p) (hkind : p.kind = .invoke) {index : Nat}
    (hindex : g.ResumesAt p index) : g.parts.position p.index ≤ index ∧
      index < g.parts.position (p.index + 1) ∧
      g.body.instructions[index]? = some (.invoke at_.kind at_.ref) := by
  rw [ResumesAt, hkind] at hindex
  obtain ⟨rfl, hget⟩ := hindex
  have hsequence := at_.q.inPlace_eq
  simp only [IsSequence, hkind] at hsequence
  obtain ⟨after, hsequence⟩ := hsequence
  have hleases : at_.q.leases.length = p.frame.stack.length := by
    rw [← at_.q.leased.length_eq, SuspendPoint.stackToSave, hkind, List.length_reverse]
  refine ⟨by omega, ?_, hget.trans at_.call_eq⟩
  rw [Expansion.position_succ at_.piece_eq, hsequence, Layout.invokeSequence]
  simp only [List.length_append, spillStack, reloadStack, List.length_map, List.length_reverse,
    List.length_singleton, hleases]
  omega

/-- The arguments of the call are on the stack again. -/
theorem Saved.enough {at_ : g.Located p} {a : Activation} {m : Machine} {state : Ref}
    (hsaved : Saved at_ a m state) (hkind : p.kind = .invoke) :
    at_.kind.arity at_.ref ≤ (p.resumedStack a.stack).length := by
  rw [← hsaved.stack, List.length_reverse, ← hsaved.savable.stack.length_eq,
    SuspendPoint.stackToSave, hkind, List.length_reverse]
  exact at_.arguments

/-- Handlers of the body as written leave an exception alone that they do not catch. -/
theorem Moved.passes {handler : HandlerRange × Option ClassName} (h : g.Moved handler)
    {index position : Nat} (hfrom : g.parts.position index ≤ position)
    (hto : position < g.parts.position (index + 1)) {m : Machine} {thrown : ClassName}
    (hunguarded : g.plan.code.Unguarded m.hierarchy index thrown) :
    Body.Passes m position thrown handler := by
  intro hcovers
  obtain ⟨x, hx, hcaught, hguards⟩ := h.guards hfrom hto hcovers
  rw [hcaught]
  exact hunguarded x hx hguards

end Generated

section

variable {settings : Settings} {h : Hierarchy}

/-- A chain of methods that are called again, given by the first one and the others. The last one
does not accept its method state. The others are intact: they were suspended at a call that leads to
the next one, and do not catch the exception themselves. -/
inductive Doomed (m : Machine) (cont : Ref) :
    Restored settings h → List (Restored settings h) → Prop
  /-- the next state is refused -/
  | rejected {f : Restored settings h} {s : MethodState}
      (called : f.method.Called f.owner.name cont f.arguments)
      (state : m.object? f.state = some (.methodState s))
      (rejects : ¬ f.generated.plan.Accepts s)
      (locks : s.id = f.generated.plan.id → s.version = f.generated.plan.version →
        f.generated.Relocks m s.lockState) :
      Doomed m cont f []
  /-- the next state is accepted, and the call that is made again ends like this -/
  | intact {f f' : Restored settings h} {rest : List (Restored settings h)} {p : SuspendPoint}
      {a : Activation} (called : f.method.Called f.owner.name cont f.arguments)
      (few : f.generated.plan.points.length ≤ 2 ^ 31)
      (at_ : f.generated.Located p) (call : p.kind = .invoke)
      (saved : Generated.Saved at_ a m f.state)
      (unguarded : f.generated.plan.code.Unguarded m.hierarchy p.index .illegalStateException)
      (arguments : f'.arguments = (a.stack.take (at_.kind.arity at_.ref)).reverse)
      (dispatches : m.Dispatches at_.kind at_.ref f'.arguments f'.owner f'.made.method)
      (inner : Doomed m cont f' rest) :
      Doomed m cont f (f' :: rest)

/-- How a restore fails, on a machine where the states before are loaded. The last method takes its
state, throws a new exception and undoes the restore. The others take theirs and call the next one,
and the exception leaves them on the machine that the last one left. -/
inductive Unwinds (limit : Nat) (cont exception : Ref) (m' : Machine) :
    Nat → Restored settings h → List (Restored settings h) → Continuation Ref → Machine → Prop
  /-- the last activation throws an exception of its own -/
  | last {f : Restored settings h} {depth : Nat} {c : Continuation Ref} {m : Machine}
      (rewound : m.Rewound settings cont c 1 m' exception)
      (runs : f.run limit depth m = .error (.exception exception) m') :
      Unwinds limit cont exception m' depth f [] c m
  /-- an activation hands on what the one inside of it has thrown -/
  | next {f f' : Restored settings h} {rest : List (Restored settings h)} {depth : Nat}
      {c c' : Continuation Ref} {m m₁ : Machine} {b : Activation} {kind : CallKind}
      {ref : MethodRef}
      (reaches : Body.Reaches (Run.callees (runMethod limit depth)) f.generated.body f.start m b m₁)
      (loads : m.Loads cont m₁) (continuation : m₁.object? cont = some (.continuation c'))
      (taken : c.Taken c' 1)
      (call : f.generated.body.instructions[b.index]? = some (.invoke kind ref))
      (arguments : f'.arguments = (b.stack.take (kind.arity ref)).reverse)
      (dispatches : m₁.Dispatches kind ref f'.arguments f'.owner f'.made.method)
      (inner : Unwinds limit cont exception m' depth f' rest c' m₁)
      (runs : f.run limit (depth + 1) m = .error (.exception exception) m') :
      Unwinds limit cont exception m' (depth + 1) f (f' :: rest) c m

variable {cont exception : Ref} {m m₁ m' : Machine} {limit depth : Nat} {c : Continuation Ref}
  {f f' : Restored settings h} {rest : List (Restored settings h)}

theorem Unwinds.run_eq (hunwinds : Unwinds limit cont exception m' depth f rest c m) :
    f.run limit depth m = .error (.exception exception) m' := by
  cases hunwinds with
  | last _ runs => exact runs
  | next _ _ _ _ _ _ _ _ runs => exact runs

/-- With more steps the runs end in the same way. -/
theorem Unwinds.mono {limit' : Nat} (hlimit : limit ≤ limit')
    (hunwinds : Unwinds limit cont exception m' depth f rest c m) :
    Unwinds limit' cont exception m' depth f rest c m := by
  induction hunwinds with
  | last rewound runs => exact .last rewound (Restored.run_mono _ hlimit runs)
  | @next f f' rest depth c c' m m₁ b kind ref reaches loads continuation taken call arguments
      dispatches _ runs ih =>
    have hbelow : (Run.callees (runMethod limit depth)).Below
        (Run.callees (runMethod limit' depth)) :=
      Run.callees_below (runMethod_below hlimit (Nat.le_refl depth))
    exact .next (reaches.mono hbelow) loads continuation taken call arguments dispatches ih
      (Restored.run_mono _ hlimit runs)

/-- All states of the chain were loaded, and the restore was undone once. -/
theorem Unwinds.rewound (hunwinds : Unwinds limit cont exception m' depth f rest c m) :
    m.Rewound settings cont c (rest.length + 1) m' exception := by
  induction hunwinds with
  | last rewound => exact rewound
  | @next f f' rest depth c c' m m₁ b kind ref _ loads _ taken _ _ _ _ _ ih =>
    have hrewound := ih.loads loads taken
    rw [Nat.add_comm] at hrewound
    exact hrewound

/-- **A method state that is not accepted**, at the end of a chain. -/
theorem Restored.rejects {s : MethodState} {k : Continuation Ref}
    (hk : m.object? cont = some (.continuation k))
    (hcalled : f.method.Called f.owner.name cont f.arguments)
    (hstate : m.object? f.state = some (.methodState s)) (hrejects : ¬ f.generated.plan.Accepts s)
    (hlocks : s.id = f.generated.plan.id → s.version = f.generated.plan.version →
      f.generated.Relocks m s.lockState)
    (hserves : m₁.Serves settings) (hloads : m.Loads cont m₁)
    (hc : m₁.object? cont = some (.continuation c)) (hloading : c.mode = .loading)
    (hnext : c.saved[c.nextLoad]? = some f.state) :
    ∃ limit exception m', Unwinds limit cont exception m' (depth + 1) f [] c m₁ := by
  have hsame := hloads.sameBut
  obtain ⟨exception, m', hthrows, hrewound⟩ := Generated.rejects hserves hc hloading hnext
    (hsame.other hk hstate rfl) hrejects
    (fun hid hversion => ((hlocks hid hversion).sameBut hk hsame).hasLocks) hcalled 0 depth _
  obtain ⟨limit, -, hrun⟩ := f.run_throws hthrows
  exact ⟨limit, exception, m', .last hrewound hrun⟩

/-- A call of a method that ends abruptly. -/
theorem Restored.execute_call {kind : CallKind} {ref : MethodRef} {b : Activation} {e : Abrupt}
    (henough : kind.arity ref ≤ b.stack.length)
    (harguments : f.arguments = (b.stack.take (kind.arity ref)).reverse)
    (hdispatches : m.Dispatches kind ref f.arguments f.owner f.made.method)
    (hrun : f.run limit depth m = .error e m') :
    Step.execute (Run.callees (runMethod limit depth)) (.invoke kind ref) b m = .error e m' := by
  rw [Restored.run] at hrun
  rw [CallKind.arity] at harguments
  simp only [Step.execute_invoke_eq rfl henough, Run.callees, ← harguments, hdispatches.call, hrun]

/-- **An exception of a call that is made again.** The method does not catch it, and its last handler
has nothing to undo any more. -/
theorem Restored.passes_on {p : SuspendPoint} (at_ : f.generated.Located p) (hkind : p.kind = .invoke)
    (hunguarded : f.generated.plan.code.Unguarded m'.hierarchy p.index .illegalStateException)
    {b : Activation}
    (hreaches : Body.Reaches (Run.callees (runMethod limit depth)) f.generated.body f.start m b m₁)
    (hresumes : f.generated.ResumesAt p b.index) (hcont : b.valueAt f.generated.size = .ref cont)
    (henough : at_.kind.arity at_.ref ≤ b.stack.length)
    (harguments : f'.arguments = (b.stack.take (at_.kind.arity at_.ref)).reverse)
    (hdispatches : m₁.Dispatches at_.kind at_.ref f'.arguments f'.owner f'.made.method)
    (hserves : m'.Serves settings) (hexception : m'.Unrecognized exception)
    (hc : m'.object? cont = some (.continuation c)) (hnormal : c.mode = .normal)
    (hrun : f'.run limit depth m₁ = .error (.exception exception) m') :
    Body.Throws (Run.callees (runMethod limit depth)) f.generated.body f.start m (.exception exception)
      m' := by
  obtain ⟨hfrom, hto, hget⟩ := at_.bounds hkind hresumes
  obtain ⟨text, hthrown, -⟩ := hexception
  have hexec := Restored.execute_call henough harguments hdispatches hrun
  have hinside := f.generated.parts.position_le_exit (p.index + 1)
  have hstart := at_.laid.invalidPosition_bounds
  have hentry : f.generated.parts.entry.length ≤ f.generated.parts.position p.index :=
    Nat.le_add_right ..
  have hthrows := at_.laid.throws hget hexec hthrown (by omega) (Nat.lt_of_lt_of_le hto hinside)
    (fun handler hmoved => hmoved.passes hfrom hto hunguarded) hserves hcont hc
  rw [hnormal, if_neg nofun] at hthrows
  exact hreaches.throws hthrows

/-- **A call that is made again**, of a method whose run is known. -/
theorem Restored.calls {p : SuspendPoint} {a : Activation} {k : Continuation Ref}
    (hk : m.object? cont = some (.continuation k))
    (hcalled : f.method.Called f.owner.name cont f.arguments)
    (hfew : f.generated.plan.points.length ≤ 2 ^ 31)
    (at_ : f.generated.Located p) (hkind : p.kind = .invoke)
    (hsaved : Generated.Saved at_ a m f.state)
    (hunguarded : f.generated.plan.code.Unguarded m.hierarchy p.index .illegalStateException)
    (harguments : f'.arguments = (a.stack.take (at_.kind.arity at_.ref)).reverse)
    (hdispatches : m.Dispatches at_.kind at_.ref f'.arguments f'.owner f'.made.method)
    (hserves : m₁.Serves settings) (hloads : m.Loads cont m₁)
    (hc : m₁.object? cont = some (.continuation c)) (hloading : c.mode = .loading)
    (hnext : c.saved[c.nextLoad]? = some f.state)
    (hinner : ∀ {m₂ c'}, m₂.Serves settings → m.Loads cont m₂ →
      m₂.object? cont = some (.continuation c') → c.Taken c' 1 →
      ∃ limit exception m', Unwinds limit cont exception m' depth f' rest c' m₂) :
    ∃ limit exception m', Unwinds limit cont exception m' (depth + 1) f (f' :: rest) c m₁ := by
  have hid : p.id < 2 ^ 31 := by
    have := at_.id_lt
    rw [at_.shape.restores_length, at_.plan_eq] at this
    omega
  obtain ⟨b, m₂, hreaches, hresumes, hstack, -, hc₂, hloads₂, hcont⟩ :
      ∃ b m₂, Body.Reaches (Run.callees (runMethod 0 depth)) f.generated.body f.start m₁ b m₂ ∧ _ :=
    Generated.resumes at_ hsaved hid hserves hloads.later (hsaved.keeps hk hloads.sameBut) hc
      hloading hnext hcalled
  have hresumed : p.resumedStack a.stack = a.stack := by
    rw [SuspendPoint.resumedStack, hkind]
  have htaken : c.Taken { c with
      mode := p.resumedMode, nextUnload := some c.nextLoad, nextLoad := c.nextLoad + 1 } 1 := by
    refine ⟨?_, rfl, rfl, rfl⟩
    rw [hloading, SuspendPoint.resumedMode, hkind]
  have hserves₂ := hloads₂.serves hserves
  have hloads' := hloads.trans hloads₂
  have harguments' : f'.arguments = (b.stack.take (at_.kind.arity at_.ref)).reverse := by
    rw [hstack, hresumed]
    exact harguments
  have hdispatches₂ := hdispatches.later hloads'.later
  have henough : at_.kind.arity at_.ref ≤ b.stack.length := by
    rw [hstack]
    exact hsaved.enough hkind
  obtain ⟨limit, exception, m', hunwinds⟩ := hinner hserves₂ hloads' hc₂ htaken
  have hrewound := hunwinds.rewound
  have hhierarchy : m'.hierarchy = m.hierarchy :=
    (hloads'.later.trans hrewound.later).hierarchy
  -- the path to the call was found without running any method, so it is one at every limit
  have hreaches' : ∀ limit, Body.Reaches (Run.callees (runMethod limit depth)) f.generated.body
      f.start m₁ b m₂ := fun limit => hreaches.mono
    (Run.callees_below (runMethod_below (Nat.zero_le limit) (Nat.le_refl depth)))
  have hthrows := Restored.passes_on at_ hkind (hhierarchy ▸ hunguarded) (hreaches' limit) hresumes
    hcont henough harguments' hdispatches₂ (hrewound.serves hserves₂) hrewound.unrecognized
    hrewound.continuation rfl hunwinds.run_eq
  obtain ⟨enough, hlimit, hrun⟩ := f.run_throws hthrows
  exact ⟨enough, exception, m', .next (hreaches' enough) hloads₂ hc₂ htaken
    (at_.bounds hkind hresumes).2.2 harguments' hdispatches₂ (hunwinds.mono hlimit) hrun⟩

/-- **A restore that fails.** On a machine where the states before the chain were loaded and those of
the chain are next, the first method of the chain ends as described, if each activation may take enough
steps. By induction on the chain: what is called is the rest of it. -/
theorem Doomed.unwinds {k : Continuation Ref} (hdoomed : Doomed m cont f rest)
    (hk : m.object? cont = some (.continuation k)) (hdepth : rest.length < depth)
    (hserves : m₁.Serves settings) (hloads : m.Loads cont m₁)
    (hc : m₁.object? cont = some (.continuation c)) (hloading : c.mode = .loading)
    (hsaved : (f :: rest).map (·.state) <+: c.saved.drop c.nextLoad) :
    ∃ limit exception m', Unwinds limit cont exception m' depth f rest c m₁ := by
  -- By induction on the frames, from the outermost inwards: each one that is intact calls the next,
  -- and passes on what that one throws.
  induction hdoomed generalizing depth c m₁ with
  | rejected called state rejects locks =>
    obtain ⟨depth, rfl⟩ := Nat.exists_eq_succ_of_ne_zero (Nat.ne_of_gt hdepth)
    exact Restored.rejects hk called state rejects locks hserves hloads hc hloading
      (cons_prefix_drop hsaved).1
  | intact called few at_ call saved unguarded arguments dispatches _ ih =>
    obtain ⟨depth, rfl⟩ := Nat.exists_eq_succ_of_ne_zero (Nat.ne_of_gt (Nat.zero_lt_of_lt hdepth))
    obtain ⟨hnext, hrest⟩ := cons_prefix_drop hsaved
    refine Restored.calls hk called few at_ call saved unguarded arguments dispatches hserves hloads
      hc hloading hnext fun hserves₂ hloads₂ hc₂ htaken => ?_
    refine ih (Nat.lt_of_succ_lt_succ hdepth) hserves₂ hloads₂ hc₂ (htaken.mode.trans hloading) ?_
    rw [htaken.saved, htaken.nextLoad]
    exact hrest

end

end Resumption
