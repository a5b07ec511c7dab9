import Resumption.Proofs.Instrument.Resetting
import Resumption.Proofs.Machine.Places

/-!
# Method states that are not accepted

A method that is called while its continuation is loading takes the method state that is next. If
that belongs to other code, or to no point, the method throws an exception, and its last handler
undoes the restore.

* **`MethodPlan.Accepts`** says which method states a method goes on with.
* **`Machine.Rewound`** says what has become of a machine when a restore was undone.
* **`Generated.rejects`**: a method throws if it does not accept the method state.
-/

namespace Resumption

/-- Does a method go on with the method state? -/
def MethodPlan.Accepts (plan : MethodPlan) (s : MethodState) : Prop :=
  s.id = plan.id ∧ s.version = plan.version ∧ 0 ≤ s.point.toInt ∧
    s.point.toInt < plan.points.length

instance (plan : MethodPlan) (s : MethodState) : Decidable (plan.Accepts s) :=
  inferInstanceAs (Decidable (_ ∧ _))

/-- A continuation from which so many more states were taken. -/
structure Continuation.Taken {σ : Type} (c c' : Continuation σ) (count : Nat) : Prop where
  /-- the mode is the same -/
  mode : c'.mode = c.mode
  /-- the states are the same -/
  saved : c'.saved = c.saved
  /-- loading has begun with the same one -/
  first : c'.first = c.first
  /-- so many more are loaded -/
  nextLoad : c'.nextLoad = c.nextLoad + count

namespace Continuation.Taken

variable {σ : Type} {c c' c'' : Continuation σ} {i j : Nat}

theorem refl (c : Continuation σ) : c.Taken c 0 := ⟨rfl, rfl, rfl, rfl⟩

theorem next (c : Continuation σ) :
    c.Taken { c with nextUnload := some c.nextLoad, nextLoad := c.nextLoad + 1 } 1 :=
  ⟨rfl, rfl, rfl, rfl⟩

theorem trans (h : c.Taken c' i) (h' : c'.Taken c'' j) : c.Taken c'' (i + j) where
  mode := h'.mode.trans h.mode
  saved := h'.saved.trans h.saved
  first := h'.first.trans h.first
  nextLoad := by rw [h'.nextLoad, h.nextLoad, Nat.add_assoc]

/-- Whatever was taken, a reset goes back to the beginning. -/
theorem reset_eq (h : c.Taken c' i) : c'.reset = c.reset := by
  simp only [reset, rewind, h.saved, h.first]

end Continuation.Taken

namespace Machine

/-- Is the object what is thrown for a method state that is not accepted? -/
def Unrecognized (m : Machine) (r : Ref) : Prop :=
  ∃ text, m.object? r = some (.instance .illegalStateException [(.message, .ref text)]) ∧
    m.object? text = some (.string "Unrecognized continuation point")

theorem Unrecognized.uncaught {m : Machine} {r : Ref} (h : m.Unrecognized r) :
    m.uncaught r =
      .uncaught .illegalStateException (some "Unrecognized continuation point") := by
  obtain ⟨text, hr, htext⟩ := h
  simp only [Machine.uncaught, hr]
  have hmessage : FieldValues.get? [(.message, Value.ref text)] .message = some (.ref text) := rfl
  simp only [hmessage, htext]

/-- Objects other than the continuation are what they were, so the exception is. -/
theorem Unrecognized.sameBut {m m' : Machine} {r cont : Ref} {c : Continuation Ref}
    (h : m.Unrecognized r) (hc : m.object? cont = some (.continuation c))
    (hsame : m.SameBut cont m') : m'.Unrecognized r := by
  obtain ⟨text, hr, htext⟩ := h
  exact ⟨text, hsame.other hc hr rfl, hsame.other hc htext rfl⟩

/-- The machine after a restore that failed: so many states were loaded, a new exception was made,
and then the restore was undone, once. -/
def Rewound (settings : Settings) (cont : Ref) (c : Continuation Ref) (count : Nat)
    (m m' : Machine) (exception : Ref) : Prop :=
  ∃ m₀ c₀, m.Loads cont m₀ ∧ m₀.object? cont = some (.continuation c₀) ∧ c.Taken c₀ count ∧
    m.object? exception = none ∧ m₀.Unrecognized exception ∧ m' = m₀.undone settings cont c₀

/-- What is not there yet was not there before. -/
theorem Precedes.absent {m m' : Machine} {r : Ref} (h : m.Precedes m') (hr : m'.object? r = none) :
    m.object? r = none := by
  cases ho : m.object? r with
  | none => rfl
  | some o =>
    obtain ⟨o', ho', -⟩ := h.objects r o ho
    rw [hr] at ho'
    cases ho'

theorem Loads.serves {settings : Settings} {cont : Ref} {m m' : Machine} (h : m.Loads cont m')
    (hserves : m.Serves settings) : m'.Serves settings :=
  (hserves.adds h).withMonitors m'.monitors

theorem Loads.rollbacks {cont : Ref} {m m' : Machine} (h : m.Loads cont m') :
    m'.pool.rollbacks = m.pool.rollbacks := by
  have hadds : m.Adds [cont] (m'.holding m.monitors) := h
  exact hadds.rollbacks

theorem Loads.sameBut {cont : Ref} {m m' : Machine} (h : m.Loads cont m') : m.SameBut cont m' :=
  fun _ _ hr ho => h.object? hr ho

namespace Rewound

variable {settings : Settings} {cont exception : Ref} {c : Continuation Ref} {count : Nat}
  {m m' : Machine}

theorem continuation (h : m.Rewound settings cont c count m' exception) :
    m'.object? cont = some (.continuation c.reset) := by
  obtain ⟨m₀, c₀, -, hc₀, htaken, -, -, rfl⟩ := h
  rw [object?_undone, object?_put_self hc₀, htaken.reset_eq]

theorem unrecognized (h : m.Rewound settings cont c count m' exception) :
    m'.Unrecognized exception := by
  obtain ⟨m₀, c₀, -, hc₀, -, -, hexception, rfl⟩ := h
  refine hexception.sameBut hc₀ fun r o hr ho => ?_
  rw [object?_undone, object?_put_of_ne hr, ho]

/-- The allocator is told once. -/
theorem rollbacks (h : m.Rewound settings cont c count m' exception) :
    m'.pool.rollbacks = m.pool.rollbacks + settings.rollbacks := by
  obtain ⟨m₀, c₀, hloads, -, -, -, -, rfl⟩ := h
  rw [undone_rollbacks, hloads.rollbacks]

theorem later (h : m.Rewound settings cont c count m' exception) : m.Precedes m' := by
  obtain ⟨m₀, c₀, hloads, hc₀, -, -, -, rfl⟩ := h
  exact hloads.later.trans (m₀.precedes_undone settings c₀ hc₀)

theorem serves (h : m.Rewound settings cont c count m' exception) (hserves : m.Serves settings) :
    m'.Serves settings := by
  obtain ⟨m₀, c₀, hloads, hc₀, -, -, -, rfl⟩ := h
  have hput := (hloads.serves hserves).adds (.put m₀ hc₀ (.continuation c₀ c₀.reset))
  rw [undone]
  split
  · exact ⟨hput.standard, hput.allocator, hput.printing, hput.literals⟩
  · exact hput

/-- One state was loaded before. -/
theorem loads {m₁ : Machine} {c₁ : Continuation Ref} {i : Nat} (hloads : m.Loads cont m₁)
    (htaken : c.Taken c₁ i) (h : m₁.Rewound settings cont c₁ count m' exception) :
    m.Rewound settings cont c (i + count) m' exception := by
  obtain ⟨m₀, c₀, hloads₀, hc₀, htaken₀, hnew, hexception, hm'⟩ := h
  exact ⟨m₀, c₀, hloads.trans hloads₀, hc₀, htaken.trans htaken₀, hloads.later.absent hnew,
    hexception, hm'⟩

end Rewound

end Machine

theorem Native.run_invalidPoint {m : Machine} (hliterate : m.Literate) :
    ∃ r m', run [] .invalidPoint m = .ok (some (.ref r)) m' ∧ m.Adds [] m' ∧ m.object? r = none ∧
      m'.Unrecognized r := by
  have htext := (hliterate.intern "Unrecognized continuation point").2
  have hintern := Machine.Adds.intern m "Unrecognized continuation point"
  cases hinterned : m.intern "Unrecognized continuation point" with
  | mk text m₁ =>
    rw [hinterned] at htext hintern
    generalize hthrown : HeapObject.instance .illegalStateException [(.message, .ref text)] = thrown
    have hrun : run [] .invalidPoint m =
        .ok (some (.ref (m₁.alloc thrown).1)) (m₁.alloc thrown).2 := by
      simp only [run, Run.newThrowable, Run.intern, Run.alloc, bind, EStateM.bind, modifyGet,
        MonadStateOf.modifyGet, EStateM.modifyGet, hinterned, ← hthrown]
      rfl
    refine ⟨_, _, hrun, hintern.trans (.alloc m₁ thrown), hintern.later.absent ?_, text, ?_,
      Machine.object?_alloc_of_some htext⟩
    · exact Array.getElem?_size
    · rw [hthrown]
      exact Machine.object?_alloc_self m₁ thrown

namespace Body

variable {run : MethodRunner} {code : Code} {body : Body} {a : Activation} {s : List Value}
  {m : Machine} {l : Layout} {first k target : Nat} {r cont : Ref} {c : Continuation Ref}
  {state : MethodState}

/-- Going elsewhere when a number of the method state is not the expected one. -/
theorem reaches_unexpected (hrun : Plain run) {getter : MethodRef} {expected : Int32}
    {otherwise : Label} (hat : body.Has k (l.unlessState getter expected otherwise))
    (hserves : m.Serves l.settings) (which : StateNumber)
    (hgetter : (getter, Native.stateNumber which) ∈ Machine.standardNatives)
    (hcount : getter.descriptor.parameters.length = 0)
    (hstate : a.valueAt l.state.slot = .ref r) (ho : m.object? r = some (.methodState state))
    (hdiffers : which.of state ≠ expected) (htarget : body.positions.find otherwise = .ok target) :
    Reaches (Run.callees run) body (a.placed s k) m (a.placed s target) m := by
  have hasked : straight (Run.callees run) [l.state.load, callVirtual getter, .pushInt expected]
      (a.placed s k) m =
        .ok (a.placed (.int expected :: .int (which.of state) :: s) (k + 3)) m := by
    refine (straight_stateNumber (a := a.placed s k) (n := 0) hserves which hgetter hcount hstate
      ho).trans ?_
    rw [straight_pushInt, straight_nil]
    rfl
  have hdiffer : Comparison.ne.holds (compare (which.of state).toInt expected.toInt) = true := by
    have hne : (which.of state).toInt ≠ expected.toInt := fun h => hdiffers (Int32.toInt_inj.mp h)
    cases hcompare : compare (which.of state).toInt expected.toInt with
    | eq => exact absurd (Int.compare_eq_eq.mp hcompare) hne
    | lt | gt => rfl
  exact (Reaches.straight hrun (hat.slice 0 3) hasked).trans
    (.ifInt (hat.slice 3 1) htarget hdiffer)

/-- **The entry when a method state is not accepted**: it goes where the exception is thrown. -/
theorem reaches_rejected (hrun : Plain run) (hbody : ofCode code = .ok body)
    {bodyStart written invalid : Label} {restores : List Label} {enters : List Instruction}
    (hat : body.Has 0 (l.entry bodyStart written invalid restores enters))
    (henters : IsMonitorLoop l l.enterLoop enters) (hready : l.Ready first)
    (hserves : m.Serves l.settings) (hcont : a.valueAt l.plan.continuationSlot = .ref cont)
    (hc : m.object? cont = some (.continuation c)) (hmode : c.mode = .loading)
    (hnext : c.saved[c.nextLoad]? = some r) (ho : m.object? r = some (.methodState state))
    (hnot : ¬ l.plan.Accepts state) (hlength : restores.length = l.plan.points.length)
    (hlocks : state.id = l.plan.id → state.version = l.plan.version →
      HasLocks l m state.lockState)
    (htarget : body.positions.find invalid = .ok target) :
    ∃ (b : Activation) (m' : Machine), Reaches (Run.callees run) body (a.placed [] 0) m
        (b.placed [] target) m' ∧ m.Loads cont m' ∧ m'.object? cont = some (.continuation
        { c with nextUnload := some c.nextLoad, nextLoad := c.nextLoad + 1 }) ∧
      b.valueAt l.continuation.slot = .ref cont := by
  by_cases hsame : state.id = l.plan.id ∧ state.version = l.plan.version
  · -- it belongs to this code, but to no point
    obtain ⟨hid, hversion⟩ := hsame
    have houtside : ¬ (0 ≤ state.point.toInt ∧ state.point.toInt < restores.length) :=
      fun h => hnot ⟨hid, hversion, h.1, hlength ▸ h.2⟩
    obtain ⟨b, m', hreaches, hadds, hc', -, hcont'⟩ := reaches_entry hrun hbody hat henters hready
      hserves hcont hc hmode hnext ho hid hversion (hlocks hid hversion)
      (by rw [Step.tableTarget_outside houtside, htarget])
    exact ⟨b, _, hreaches, (Machine.Loads.of_adds hadds).holding _, hc', hcont'⟩
  · rw [Layout.entry] at hat
    obtain ⟨hat, -⟩ := Has.append_iff.mp hat
    obtain ⟨hat, -⟩ := Has.append_iff.mp hat
    obtain ⟨hbegin, hload⟩ := Has.append_iff.mp hat
    obtain ⟨hload, -⟩ := Has.append_iff.mp hload
    obtain ⟨hload, hversionAt⟩ := Has.append_iff.mp hload
    obtain ⟨htake, hidAt⟩ := Has.append_iff.mp hload
    obtain ⟨a₁, m₁, hloading, hadds₁, hcont₁⟩ := reaches_loading hrun hbegin hready hserves hcont hc
      hmode
    rw [Nat.zero_add] at htake hidAt hversionAt
    obtain ⟨b, m₂, htaken, hadds₂, hc₂, hstate, hcont₂⟩ := reaches_taken (s := []) hrun htake hready
      (hserves.adds hadds₁) hcont₁ (hadds₁.same hc) hnext
    have hadds := hadds₁.anything.trans hadds₂
    have hserves₂ := hserves.adds hadds
    have ho₂ := hadds.sameBut.other hc ho rfl
    refine ⟨b, m₂, (hloading.trans htaken).trans ?_, .of_adds hadds, hc₂, hcont₂⟩
    by_cases hid : state.id = l.plan.id
    · have hversion : state.version ≠ l.plan.version := fun h => hsame ⟨hid, h⟩
      have hidChecked := reaches_expected (s := []) hrun hidAt hserves₂ .id (by decide) rfl hstate
        ho₂ hid
      simp only [List.length_append, ← Nat.add_assoc] at hversionAt hidChecked ⊢
      exact hidChecked.trans (reaches_unexpected hrun hversionAt hserves₂ .version (by decide) rfl
        hstate ho₂ hversion htarget)
    · exact reaches_unexpected hrun hidAt hserves₂ .id (by decide) rfl hstate ho₂ hid htarget

end Body

namespace Generated

variable {settings : Settings} {h : Hierarchy} {owner : ClassName} {method : Method}
  {made : SuspendableMethod} {g : Generated settings h owner method made} {m : Machine}
  {lockState : Value}

/-- A lock state from which the method can enter its monitors again. -/
def Relocks (g : Generated settings h owner method made) (m : Machine) (lockState : Value) : Prop :=
  if g.plan.code.hasMonitors then
    ∃ lock locks, lockState = .ref lock ∧ m.object? lock = some (.lockState locks) ∧
      locks.monitors.length < 2 ^ 31
  else lockState = .null

/-- A lock state, if the method has monitors. Without monitors it is not looked at. -/
def HasLocks (g : Generated settings h owner method made) (m : Machine) (lockState : Value) : Prop :=
  g.plan.code.hasMonitors = true → ∃ lock locks, lockState = .ref lock ∧
    m.object? lock = some (.lockState locks)

theorem Relocks.hasLocks (hlocks : g.Relocks m lockState) : g.HasLocks m lockState := by
  intro hmonitors
  rw [Relocks, if_pos hmonitors] at hlocks
  obtain ⟨lock, locks, hlock, ho, -⟩ := hlocks
  exact ⟨lock, locks, hlock, ho⟩

theorem Laid.hasLocks (at_ : g.Laid) (hlocks : g.HasLocks m lockState) :
    Body.HasLocks at_.l m lockState := by
  intro hsome
  exact hlocks (at_.monitors_eq ▸ hsome)

/-- Where the exception is thrown. -/
def Laid.invalidPosition (at_ : g.Laid) : Nat :=
  (at_.l.start at_.shape.bodyStart ++ at_.l.unlessMode .loading at_.shape.written ++
    at_.l.announce "loading" ++ at_.l.loadState at_.shape.invalid at_.shape.enters ++
    at_.l.toPoint at_.shape.invalid at_.shape.restores).length

theorem Laid.has_invalid (at_ : g.Laid) :
    g.body.Has at_.invalidPosition [.label at_.shape.invalid,
      callStatic Interface.Continuation.invalidContinuationPoint, .throw,
      .label at_.shape.written] := by
  have hat := Expansion.has_entry g.body_has
  rw [at_.shape.entry_eq, Layout.entry] at hat
  obtain ⟨-, hthrow⟩ := Body.Has.append_iff.mp hat
  rw [Nat.zero_add] at hthrow
  exact hthrow

/-- The last handler covers it, and those of the body as written do not. -/
theorem Laid.invalidPosition_bounds (at_ : g.Laid) :
    at_.startPosition ≤ at_.invalidPosition ∧
      at_.invalidPosition + 4 = g.parts.entry.length := by
  constructor
  · simp only [startPosition, invalidPosition, Layout.start, List.length_append, List.length_cons,
      List.length_nil]
    omega
  · rw [at_.shape.entry_eq, Layout.entry, List.length_append]
    rfl

/-- Throwing the exception, while the continuation is loading. -/
theorem Laid.throws_invalid (at_ : g.Laid) (limit depth : Nat) {b : Activation} {cont : Ref}
    {c : Continuation Ref} (hserves : m.Serves settings) (hcont : b.valueAt g.size = .ref cont)
    (hc : m.object? cont = some (.continuation c)) (hloading : c.mode = .loading) :
    ∃ exception m', Body.Throws (Run.callees (runMethod limit depth)) g.body
        (b.placed [] at_.invalidPosition) m (.exception exception)
        (m'.undone settings cont c) ∧
      m.Adds [] m' ∧ m.object? exception = none ∧ m'.Unrecognized exception := by
  have hat := at_.has_invalid
  obtain ⟨hfrom, hto⟩ := at_.invalidPosition_bounds
  generalize at_.invalidPosition = k at hat hfrom hto
  obtain ⟨exception, m', hnative, hadds, hnew, hexception⟩ :=
    Native.run_invalidPoint hserves.literals
  obtain ⟨text, hthrown, -⟩ := id hexception
  have hmade : Body.Reaches (Run.callees (runMethod limit depth)) g.body (b.placed [] (k + 1)) m
      (b.placed [.ref exception] (k + 2)) m' :=
    .block (s := []) (Body.plain_runMethod limit depth) (hat.slice 1 1)
      (Body.straight_native (a := b.placed [] (k + 1)) (s := [])
        (hserves.standard (_, .invalidPoint) (by decide)) hnative rfl rfl rfl)
  have hinside : k + 2 < g.parts.entry.length := by omega
  have hthrows : Body.Throws (Run.callees (runMethod limit depth)) g.body
      (b.placed [.ref exception] (k + 2)) m' (.exception exception) _ :=
    at_.throws (hat.slice 2 1).getElem? Step.execute_throw hthrown (Nat.le_add_right_of_le hfrom)
      (Nat.lt_of_lt_of_le hinside (Nat.le_trans (Nat.le_add_right ..) (g.parts.position_le_exit 0)))
      (fun handler hmoved hcovers => by
        rw [Activation.placed_index, at_.moved_apart hmoved (.inl hinside)] at hcovers
        cases hcovers)
      (hserves.adds hadds) hcont (hadds.same hc)
  rw [if_pos hloading] at hthrows
  exact ⟨exception, m', ((Body.Reaches.label hat).trans hmade).throws hthrows, hadds, hnew,
    hexception⟩

section

variable {cont r : Ref} {c : Continuation Ref} {state : MethodState} {arguments : List Value}

/-- The entry ends where the exception is thrown, and is not left before that: the path goes through
a body that has nothing but the entry. -/
theorem Laid.reaches_invalid (at_ : g.Laid) (hserves : m.Serves settings)
    (hc : m.object? cont = some (.continuation c)) (hloading : c.mode = .loading)
    (hnext : c.saved[c.nextLoad]? = some r) (ho : m.object? r = some (.methodState state))
    (hnot : ¬ g.plan.Accepts state)
    (hlocks : state.id = g.plan.id → state.version = g.plan.version → g.HasLocks m state.lockState)
    (hcalled : method.Called owner cont arguments) (limit depth : Nat) (name : String) :
    ∃ (front : Body) (b : Activation) (m' : Machine), front.Begins g.body ∧
      front.instructions.size = g.parts.entry.length ∧
      Body.Reaches (Run.callees (runMethod limit depth)) front
        { method := name, locals := argumentLocals arguments, stack := [], index := 0 } m
        (b.placed [] at_.invalidPosition) m' ∧ m.Loads cont m' ∧
      m'.object? cont = some (.continuation
        { c with nextUnload := some c.nextLoad, nextLoad := c.nextLoad + 1 }) ∧
      b.valueAt g.size = .ref cont := by
  obtain ⟨front, hfront, hinstructions, hbegins⟩ :=
    Body.exists_begins g.body_eq (Expansion.has_entry g.body_has)
  have hat : front.Has 0 g.parts.entry := ⟨[], by rw [hinstructions, List.append_nil, List.drop_zero]⟩
  rw [at_.shape.entry_eq] at hat
  have hinvalid := (Body.Has.append_iff.mp hat).2
  rw [Nat.zero_add] at hinvalid
  have hserves' : m.Serves at_.l.settings := by
    rw [at_.settings_eq]
    exact hserves
  obtain ⟨b, m₁, hrejected, hloads, hc₁, hcont⟩ := Body.reaches_rejected
    (Body.plain_runMethod limit depth) hfront hat at_.shape.enters_loop at_.ready hserves'
    (by rw [at_.plan_eq]; exact called_continuation hcalled name) hc hloading hnext ho
    (by rw [at_.plan_eq]; exact hnot) at_.shape.restores_length
    (by rw [at_.plan_eq]; exact fun hid hversion => at_.hasLocks (hlocks hid hversion))
    (Body.find_label hfront hinvalid)
  rw [at_.ready.continuation_slot] at hcont
  exact ⟨front, b, m₁, hbegins, by rw [← hinstructions, Array.length_toList], hrejected, hloads, hc₁,
    hcont⟩

/-- **A method state that is not accepted.** The method throws a new exception, and its last handler
undoes the restore. -/
theorem rejects (hserves : m.Serves settings)
    (hc : m.object? cont = some (.continuation c)) (hloading : c.mode = .loading)
    (hnext : c.saved[c.nextLoad]? = some r) (ho : m.object? r = some (.methodState state))
    (hnot : ¬ g.plan.Accepts state)
    (hlocks : state.id = g.plan.id → state.version = g.plan.version → g.HasLocks m state.lockState)
    (hcalled : method.Called owner cont arguments) (limit depth : Nat) (name : String) :
    ∃ exception m', Body.Throws (Run.callees (runMethod limit depth)) g.body
        { method := name, locals := argumentLocals arguments, stack := [], index := 0 } m
        (.exception exception) m' ∧ m.Rewound settings cont c 1 m' exception := by
  obtain ⟨at_⟩ := g.laid
  obtain ⟨_, b, m₁, hbegins, -, hrejected, hloads, hc₁, hcont⟩ := at_.reaches_invalid
    hserves hc hloading hnext ho hnot hlocks hcalled limit depth name
  obtain ⟨exception, m₂, hthrows, hadds, hnew, hexception⟩ :=
    at_.throws_invalid limit depth (hloads.serves hserves) hcont hc₁ hloading
  exact ⟨exception, _, (hbegins.reaches hrejected).throws hthrows, m₂, _,
    hloads.trans (.of_adds hadds.anything), hadds.same hc₁, .next c, hloads.later.absent hnew,
    hexception, rfl⟩

end

end Generated

end Resumption
