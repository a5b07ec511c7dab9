import Resumption.Proofs.Instrument.SavePath

/-!
# From the entry to a point

What a method does that is called again while its continuation is loading: the entry takes the method
state and goes to the restore block of its point, which puts everything back and goes on there.

* **`reaches_enters`**: entering the recorded monitors.
* **`reaches_entry`**: the entry, up to the restore block.
* **`reaches_block`**: the restore block, up to the point.
-/

namespace Resumption

/-- The monitors that a lock state has recorded. -/
def Machine.recorded (m : Machine) : Value → List Ref
  | .ref r =>
    match m.object? r with
    | some (.lockState locks) => locks.monitors
    | _ => []
  | _ => []

namespace Layout

variable {l : Layout} {first : Nat}

namespace Ready

theorem distinct (h : l.Ready first) {v : MonitorVariables} (hv : l.monitors = some v) :
    v.Distinct := by
  have hapart := h.separate.apart
  rw [shared, hv] at hapart
  simp only [List.pairwise_cons, List.mem_cons, forall_eq_or_imp, Lease.span, Span.Apart,
    h.array_kind v hv, h.index_kind v hv, h.lockState_kind v hv] at hapart
  have hwidth : ValueKind.object.width = 1 ∧ ValueKind.int.width = 1 := ⟨rfl, rfl⟩
  rw [hwidth.1, hwidth.2] at hapart
  constructor <;> omega

/-- The loops over the monitors stay away from the variables that are needed after them. -/
theorem owned_apart (h : l.Ready first) {v : MonitorVariables} (hv : l.monitors = some v)
    {c : Cell} (hc : v.Owns c) :
    Span.Apart ⟨l.state.slot, 1⟩ c.span ∧ Span.Apart ⟨l.continuation.slot, 1⟩ c.span := by
  have hapart := h.separate.apart
  rw [shared, hv] at hapart
  simp only [List.pairwise_cons, List.mem_cons, forall_eq_or_imp, Lease.span, Span.Apart,
    h.array_kind v hv, h.index_kind v hv, h.lockState_kind v hv, h.state_kind,
    h.continuation_kind] at hapart
  have hwidth : ValueKind.object.width = 1 ∧ ValueKind.int.width = 1 := ⟨rfl, rfl⟩
  rw [hwidth.1, hwidth.2] at hapart
  obtain ⟨hslot, hnarrow⟩ := hc
  simp only [List.mem_cons, List.not_mem_nil, or_false] at hslot
  simp only [Span.Apart, Cell.span, hnarrow]
  omega

theorem state_continuation (h : l.Ready first) : l.state.slot ≠ l.continuation.slot := by
  have hin : [l.state, l.continuation] <:+ l.shared := by
    rw [shared]
    split
    · exact ⟨[_, _, _, _], rfl⟩
    · exact List.suffix_rfl
  have hapart := h.separate.apart.sublist hin.sublist
  simp only [List.pairwise_cons, List.mem_cons, forall_eq_or_imp, Lease.span, Span.Apart,
    h.state_kind, h.continuation_kind] at hapart
  have hwidth : ValueKind.object.width = 1 := rfl
  rw [hwidth] at hapart
  omega

end Ready

end Layout

namespace Body

variable {run : MethodRunner} {code : Code} {body : Body} {a b : Activation} {s : List Value}
  {m : Machine} {l : Layout} {first k : Nat} {r : Ref}

/-- A lock state from which monitors can be entered again. -/
def Relocks (l : Layout) (m : Machine) (lockState : Value) : Prop :=
  match l.monitors with
  | some _ => ∃ lock locks, lockState = .ref lock ∧ m.object? lock = some (.lockState locks) ∧
      locks.monitors.length < 2 ^ 31
  | none => lockState = .null

/-- A lock state, if the body has monitors. Without monitors it is not looked at. -/
def HasLocks (l : Layout) (m : Machine) (lockState : Value) : Prop :=
  l.monitors.isSome = true → ∃ lock locks, lockState = .ref lock ∧
    m.object? lock = some (.lockState locks)

/-- The monitors that are entered again. -/
def entered (l : Layout) (m : Machine) (lockState : Value) : List Ref :=
  if l.monitors.isSome then
    (m.recorded lockState).take (counted (m.recorded lockState).length)
  else []

/-- A lock state is not the continuation, so that may change. -/
theorem HasLocks.sameBut {m' : Machine} {lockState : Value} {cont : Ref} {c : Continuation Ref}
    (h : HasLocks l m lockState) (hc : m.object? cont = some (.continuation c))
    (hsame : m.SameBut cont m') :
    HasLocks l m' lockState ∧ entered l m' lockState = entered l m lockState := by
  simp only [HasLocks, entered] at h ⊢
  cases hmonitors : l.monitors.isSome with
  | false =>
    exact ⟨fun htrue => absurd htrue Bool.false_ne_true,
      by rw [if_neg Bool.false_ne_true, if_neg Bool.false_ne_true]⟩
  | true =>
    obtain ⟨lock, locks, rfl, ho⟩ := h hmonitors
    have ho' : m'.object? lock = some (.lockState locks) := hsame.other hc ho rfl
    have hrecorded : m'.recorded (.ref lock) = m.recorded (.ref lock) := by
      simp only [Machine.recorded, ho, ho']
    exact ⟨fun _ => ⟨lock, locks, rfl, ho'⟩, by rw [hrecorded]⟩

/-- Then all monitors that were recorded are entered again. -/
theorem Relocks.hasLocks {lockState : Value} (h : Relocks l m lockState) :
    HasLocks l m lockState ∧ entered l m lockState = m.recorded lockState := by
  simp only [Relocks] at h
  simp only [HasLocks, entered]
  cases hmonitors : l.monitors with
  | none =>
    simp only [hmonitors] at h
    subst h
    exact ⟨fun htrue => absurd htrue Bool.false_ne_true, rfl⟩
  | some v =>
    simp only [hmonitors] at h
    obtain ⟨lock, locks, rfl, ho, hsize⟩ := h
    have hrecorded : m.recorded (.ref lock) = locks.monitors := by
      simp only [Machine.recorded, ho]
    refine ⟨fun _ => ⟨lock, locks, rfl, ho⟩, ?_⟩
    rw [if_pos Option.isSome_some, hrecorded, counted_of_lt hsize, List.take_length]

/-- The continuation may change. -/
theorem Relocks.sameBut {m' : Machine} {lockState : Value} {cont : Ref} {c : Continuation Ref}
    (h : Relocks l m lockState) (hc : m.object? cont = some (.continuation c))
    (hsame : m.SameBut cont m') :
    Relocks l m' lockState ∧ m'.recorded lockState = m.recorded lockState := by
  simp only [Relocks] at h ⊢
  split at h
  · obtain ⟨lock, locks, rfl, ho, hsize⟩ := h
    have ho' : m'.object? lock = some (.lockState locks) := hsame.other hc ho rfl
    exact ⟨⟨lock, locks, rfl, ho', hsize⟩, by simp only [Machine.recorded, ho, ho']⟩
  · subst h
    exact ⟨rfl, rfl⟩

/-- Entering the recorded monitors, if the body has any. -/
theorem reaches_enters (hrun : Plain run) (hbody : ofCode code = .ok body)
    {enters : List Instruction} (hat : body.Has k enters)
    (henters : IsMonitorLoop l l.enterLoop enters) (hready : l.Ready first)
    (hserves : m.Serves l.settings) {state : MethodState} {cont : Ref}
    (hstate : a.valueAt l.state.slot = .ref r) (ho : m.object? r = some (.methodState state))
    (hcont : a.valueAt l.continuation.slot = .ref cont) (hlocks : HasLocks l m state.lockState) :
    ∃ (b : Activation) (m' : Machine), Reaches (Run.callees run) body (a.placed s k) m
        (b.placed s (k + enters.length))
        { m' with monitors := m.monitors.enterAll (entered l m state.lockState) } ∧
      m.Adds [] m' ∧ b.valueAt l.state.slot = .ref r ∧
      b.valueAt l.continuation.slot = .ref cont := by
  simp only [IsMonitorLoop] at henters
  split at henters
  · rename_i v hmonitors
    have hsome : l.monitors.isSome = true := by rw [hmonitors, Option.isSome_some]
    obtain ⟨start, stop, rfl⟩ := henters
    obtain ⟨lock, locks, hlock, hlockObject⟩ := hlocks hsome
    obtain ⟨cells, m', hreaches, hadds, hcells, -⟩ := reaches_enterLoop (s := s) hrun hbody hat
      (hready.distinct hmonitors) hserves hstate ho hlock hlockObject
    have hrecorded : m.recorded state.lockState = locks.monitors := by
      simp only [Machine.recorded, hlock, hlockObject]
    rw [hadds.monitors] at hreaches
    rw [entered, if_pos hsome, hrecorded]
    refine ⟨a.storeAll cells, m', hreaches, hadds, ?_, ?_⟩
    · exact Activation.valueAt_storeAll_of_apart hstate fun c hc =>
        (hready.owned_apart hmonitors (hcells c hc)).1
    · exact Activation.valueAt_storeAll_of_apart hcont fun c hc =>
        (hready.owned_apart hmonitors (hcells c hc)).2
  · rename_i hmonitors
    subst henters
    have hnone : entered l m state.lockState = [] := by
      rw [entered, hmonitors]
      rfl
    rw [hnone]
    exact ⟨a, m, .refl _ _, .refl m, hstate, hcont⟩

theorem straight_loadNext {rest : List Instruction} {n : Nat} (hserves : m.Serves l.settings)
    {c : Continuation Ref} (h : m.object? r = some (.continuation c)) {state : Ref}
    (hnext : c.saved[c.nextLoad]? = some state) :
    straight (Run.callees run) (callVirtual Interface.Continuation.loadNextMethodState :: rest)
        (a.moved (.ref r :: s) n) m =
      straight (Run.callees run) rest (a.moved (.ref state :: s) (n + 1))
        (m.put r (.continuation
          { c with nextUnload := some c.nextLoad, nextLoad := c.nextLoad + 1 })) :=
  straight_native (s := s) (hserves.standard (_, .loadNext) (by decide))
    (Native.run_loadNext h hnext) rfl rfl rfl

theorem straight_createLocks {rest : List Instruction} {n : Nat} (hserves : m.Serves l.settings) :
    straight (Run.callees run) (callStatic Interface.LockState.create :: rest) (a.moved s n) m =
      straight (Run.callees run) rest
        (a.moved (.ref (m.alloc (.lockState .empty)).1 :: s) (n + 1))
        (m.alloc (.lockState .empty)).2 := by
  have hcreate : Native.run [] .createLocks m = .ok (some (.ref (m.alloc (.lockState .empty)).1))
      (m.alloc (.lockState .empty)).2 := rfl
  exact straight_native (s := s) (hserves.standard (_, .createLocks) (by decide))
    hcreate rfl rfl rfl

/-- A number of the method state, as the entry asks for it. -/
theorem straight_stateNumber {rest : List Instruction} {n : Nat} (hserves : m.Serves l.settings)
    {getter : MethodRef} (which : StateNumber)
    (hgetter : (getter, Native.stateNumber which) ∈ Machine.standardNatives)
    (hcount : getter.descriptor.parameters.length = 0) {state : MethodState}
    (hstate : a.valueAt l.state.slot = .ref r) (ho : m.object? r = some (.methodState state)) :
    straight (Run.callees run) (l.state.load :: callVirtual getter :: rest) (a.moved s n) m =
      straight (Run.callees run) rest (a.moved (.int (which.of state) :: s) (n + 2)) m := by
  simp only [Lease.load]
  rw [straight_load hstate (by simp)]
  exact straight_native (s := s) (hserves.standard _ hgetter) (Native.run_stateNumber ho which)
    (by rw [hcount]; rfl) rfl rfl

/-- Going on when a number of the method state is the expected one. -/
theorem reaches_expected (hrun : Plain run) {getter : MethodRef} {expected : Int32}
    {otherwise : Label} (hat : body.Has k (l.unlessState getter expected otherwise))
    (hserves : m.Serves l.settings) (which : StateNumber)
    (hgetter : (getter, Native.stateNumber which) ∈ Machine.standardNatives)
    (hcount : getter.descriptor.parameters.length = 0) {state : MethodState}
    (hstate : a.valueAt l.state.slot = .ref r) (ho : m.object? r = some (.methodState state))
    (hexpected : which.of state = expected) :
    Reaches (Run.callees run) body (a.placed s k) m
      (a.placed s (k + (l.unlessState getter expected otherwise).length)) m := by
  have hequal : Comparison.ne.holds (compare expected.toInt expected.toInt) = false := by
    rw [Int.compare_eq_eq.mpr rfl]
    rfl
  refine .block hrun hat ?_
  rw [Layout.unlessState, straight_stateNumber (a := a.placed s k) hserves which hgetter hcount
    hstate ho, hexpected, straight_pushInt, straight_ifInt hequal, straight_nil]
  rfl

/-! ## The entry -/

/-- Making a lock state for the activation, if the body has monitors. -/
theorem reaches_createLockState (hrun : Plain run) (hat : body.Has k l.createLockState)
    (hready : l.Ready first) (hserves : m.Serves l.settings) {cont : Ref}
    (hcont : a.valueAt l.continuation.slot = .ref cont) :
    ∃ (b : Activation) (m' : Machine), Reaches (Run.callees run) body (a.placed s k) m
        (b.placed s (k + l.createLockState.length)) m' ∧ m.Adds [] m' ∧
      b.valueAt l.continuation.slot = .ref cont := by
  rw [Layout.createLockState] at hat ⊢
  split at hat
  · rename_i v hmonitors
    have hstraight : straight (Run.callees run) [callStatic Interface.LockState.create,
        v.lockState.store] (a.placed s k) m =
          .ok ((a.store v.lockState.slot (.ref (m.alloc (.lockState .empty)).1)).placed s (k + 2))
            (m.alloc (.lockState .empty)).2 :=
      (straight_createLocks (a := a.placed s k) (n := 0) hserves).trans straight_store
    refine ⟨_, _, .straight hrun hat hstraight, .alloc m _, ?_⟩
    have howned : v.Owns (v.lockState.slot, .ref (m.alloc (.lockState .empty)).1) :=
      ⟨List.mem_cons_self .., rfl⟩
    rw [Activation.valueAt_store_of_apart (c := (v.lockState.slot, _))]
    · exact hcont
    · rw [hcont]
      exact (hready.owned_apart hmonitors howned).2
  · exact ⟨a, m, .refl _ _, .refl m, hcont⟩

/-- What a method begins with in every mode: the continuation is where the rest expects it. -/
theorem reaches_start (hrun : Plain run) {bodyStart : Label} (hat : body.Has k (l.start bodyStart))
    (hready : l.Ready first) (hserves : m.Serves l.settings) {cont : Ref}
    (hcont : a.valueAt l.plan.continuationSlot = .ref cont) :
    ∃ (b : Activation) (m' : Machine), Reaches (Run.callees run) body (a.placed s k) m
        (b.placed s (k + (l.start bodyStart).length)) m' ∧ m.Adds [] m' ∧
      b.valueAt l.continuation.slot = .ref cont := by
  obtain ⟨hat, hlabel⟩ := Has.append_iff.mp hat
  obtain ⟨hat, hcreate⟩ := Has.append_iff.mp hat
  obtain ⟨hannounce, hmove⟩ := Has.append_iff.mp hat
  obtain ⟨m₁, hannounced, hadds₁⟩ := reaches_announce (a := a) (s := s) hrun hannounce hserves
  have hmoved : straight (Run.callees run) [.load .object l.plan.continuationSlot,
      l.continuation.store] (a.placed s (k + (l.announce "entry").length)) m₁ =
        .ok ((a.store l.continuation.slot (.ref cont)).placed s
          (k + (l.announce "entry").length + 2)) m₁ :=
    (straight_load (a := a.placed s _) (n := 0) hcont nofun).trans straight_store
  rw [List.length_append, ← Nat.add_assoc] at hcreate
  obtain ⟨b, m₂, hcreated, hadds₂, hcont₂⟩ := reaches_createLockState (s := s) hrun hcreate hready
    (hserves.adds hadds₁) (Activation.valueAt_store_self a l.continuation.slot (.ref cont))
  simp only [Layout.start, List.length_append, ← Nat.add_assoc] at hlabel ⊢
  exact ⟨b, m₂, ((hannounced.trans (.straight hrun hmove hmoved)).trans hcreated).trans
    (.label hlabel), hadds₁.trans hadds₂, hcont₂⟩

/-- Taking the next method state. -/
theorem reaches_taken (hrun : Plain run)
    (hat : body.Has k [l.continuation.load,
      callVirtual Interface.Continuation.loadNextMethodState, l.state.store])
    (hready : l.Ready first) (hserves : m.Serves l.settings) {cont : Ref} {c : Continuation Ref}
    (hcont : a.valueAt l.continuation.slot = .ref cont)
    (hc : m.object? cont = some (.continuation c)) (hnext : c.saved[c.nextLoad]? = some r) :
    ∃ (b : Activation) (m' : Machine), Reaches (Run.callees run) body (a.placed s k) m
        (b.placed s (k + 3)) m' ∧ m.Adds [cont] m' ∧ m'.object? cont = some (.continuation
        { c with nextUnload := some c.nextLoad, nextLoad := c.nextLoad + 1 }) ∧
      b.valueAt l.state.slot = .ref r ∧ b.valueAt l.continuation.slot = .ref cont := by
  generalize hput : m.put cont (.continuation
    { c with nextUnload := some c.nextLoad, nextLoad := c.nextLoad + 1 }) = m'
  generalize hb : a.store l.state.slot (.ref r) = b
  have htaken : straight (Run.callees run) [l.continuation.load,
      callVirtual Interface.Continuation.loadNextMethodState, l.state.store] (a.placed s k) m =
        .ok (b.placed s (k + 3)) m' := by
    simp only [Lease.load, Lease.store]
    refine (straight_load (a := a.placed s k) (n := 0) hcont (by simp)).trans ?_
    rw [straight_loadNext hserves hc hnext, straight_store, hput, straight_nil, ← hb]
    rfl
  exact ⟨b, m', .straight hrun hat htaken, hput ▸ .put m hc (.continuation c _),
    hput ▸ Machine.object?_put_self hc, hb ▸ Activation.valueAt_store_self ..,
    hb ▸ Activation.valueAt_store_narrow hcont rfl rfl hready.state_continuation.symm⟩

/-- Taking the next method state, which belongs to this code, and entering its monitors. -/
theorem reaches_loadState (hrun : Plain run) (hbody : ofCode code = .ok body) {invalid : Label}
    {enters : List Instruction} (hat : body.Has k (l.loadState invalid enters))
    (henters : IsMonitorLoop l l.enterLoop enters) (hready : l.Ready first)
    (hserves : m.Serves l.settings) {cont : Ref} {c : Continuation Ref}
    (hcont : a.valueAt l.continuation.slot = .ref cont)
    (hc : m.object? cont = some (.continuation c)) {state : MethodState}
    (hnext : c.saved[c.nextLoad]? = some r) (ho : m.object? r = some (.methodState state))
    (hid : state.id = l.plan.id) (hversion : state.version = l.plan.version)
    (hlocks : HasLocks l m state.lockState) :
    ∃ (b : Activation) (m' : Machine), Reaches (Run.callees run) body (a.placed s k) m
        (b.placed s (k + (l.loadState invalid enters).length))
        { m' with monitors := m.monitors.enterAll (entered l m state.lockState) } ∧
      m.Adds [cont] m' ∧ m'.object? cont = some (.continuation
        { c with nextUnload := some c.nextLoad, nextLoad := c.nextLoad + 1 }) ∧
      b.valueAt l.state.slot = .ref r ∧ b.valueAt l.continuation.slot = .ref cont := by
  obtain ⟨hat, henter⟩ := Has.append_iff.mp hat
  obtain ⟨hat, hversionAt⟩ := Has.append_iff.mp hat
  obtain ⟨htake, hidAt⟩ := Has.append_iff.mp hat
  obtain ⟨b, m₁, htaken, hadds₁, hc₁, hstate, hcont₁⟩ :=
    reaches_taken (s := s) hrun htake hready hserves hcont hc hnext
  have ho₁ := hadds₁.sameBut.other hc ho rfl
  obtain ⟨hlocks₁, hrecorded⟩ := hlocks.sameBut hc hadds₁.sameBut
  have hserves₁ := hserves.adds hadds₁
  have hidChecked := reaches_expected (s := s) hrun hidAt hserves₁ .id (by decide) rfl hstate ho₁ hid
  simp only [List.length_append, ← Nat.add_assoc] at hversionAt henter
  have hversionChecked := reaches_expected (s := s) hrun hversionAt hserves₁ .version (by decide)
    rfl hstate ho₁ hversion
  obtain ⟨b', m', hentered, hadds₂, hstate', hcont'⟩ := reaches_enters (s := s) hrun hbody henter
    henters hready hserves₁ hstate ho₁ hcont₁ hlocks₁
  rw [hrecorded, hadds₁.monitors] at hentered
  simp only [Layout.loadState, List.length_append, ← Nat.add_assoc]
  exact ⟨b', m', ((htaken.trans hidChecked).trans hversionChecked).trans hentered,
    hadds₁.trans hadds₂.anything, hadds₂.same hc₁, hstate', hcont'⟩

/-- The entry while loading, up to where it takes the method state that is next. -/
theorem reaches_loading (hrun : Plain run) {bodyStart written : Label}
    (hat : body.Has 0 (l.start bodyStart ++ l.unlessMode .loading written ++ l.announce "loading"))
    (hready : l.Ready first) (hserves : m.Serves l.settings) {cont : Ref} {c : Continuation Ref}
    (hcont : a.valueAt l.plan.continuationSlot = .ref cont)
    (hc : m.object? cont = some (.continuation c)) (hmode : c.mode = .loading) :
    ∃ (b : Activation) (m' : Machine), Reaches (Run.callees run) body (a.placed [] 0) m
        (b.placed [] (l.start bodyStart ++ l.unlessMode .loading written ++
          l.announce "loading").length) m' ∧ m.Adds [] m' ∧
      b.valueAt l.continuation.slot = .ref cont := by
  obtain ⟨hat, hannounce⟩ := Has.append_iff.mp hat
  obtain ⟨hstart, hunless⟩ := Has.append_iff.mp hat
  simp only [List.length_append, ← Nat.add_assoc] at hannounce
  obtain ⟨b, m₁, hstarted, hadds₁, hcont₁⟩ := reaches_start (s := []) hrun hstart hready hserves
    hcont
  have hserves₁ := hserves.adds hadds₁
  have hloading := Reaches.block (a := b) (s := []) hrun (hmode ▸ hunless)
    (straight_inMode (a := b.placed _ _) hserves₁ hcont₁ (hadds₁.same hc))
  rw [hmode] at hloading
  obtain ⟨m₂, hannounced, hadds₂⟩ := reaches_announce (a := b) (s := []) hrun hannounce hserves₁
  have hpath := (hstarted.trans hloading).trans hannounced
  rw [Nat.zero_add] at hpath
  simp only [List.length_append]
  exact ⟨b, m₂, hpath, hadds₁.trans hadds₂, hcont₁⟩

/-- **The entry while loading**: it goes where the jump table says for the method state that is
next. -/
theorem reaches_entry (hrun : Plain run) (hbody : ofCode code = .ok body)
    {bodyStart written invalid : Label} {restores : List Label} {enters : List Instruction}
    (hat : body.Has 0 (l.entry bodyStart written invalid restores enters))
    (henters : IsMonitorLoop l l.enterLoop enters) (hready : l.Ready first)
    (hserves : m.Serves l.settings) {cont : Ref} {c : Continuation Ref}
    (hcont : a.valueAt l.plan.continuationSlot = .ref cont)
    (hc : m.object? cont = some (.continuation c)) (hmode : c.mode = .loading)
    {state : MethodState} (hnext : c.saved[c.nextLoad]? = some r)
    (ho : m.object? r = some (.methodState state)) (hid : state.id = l.plan.id)
    (hversion : state.version = l.plan.version) (hlocks : HasLocks l m state.lockState)
    {target : Nat}
    (htarget : body.positions.find (Step.tableTarget 0 invalid restores state.point) = .ok target) :
    ∃ (b : Activation) (m' : Machine), Reaches (Run.callees run) body (a.placed [] 0) m
        (b.placed [] target)
        { m' with monitors := m.monitors.enterAll (entered l m state.lockState) } ∧
      m.Adds [cont] m' ∧ m'.object? cont = some (.continuation
        { c with nextUnload := some c.nextLoad, nextLoad := c.nextLoad + 1 }) ∧
      b.valueAt l.state.slot = .ref r ∧ b.valueAt l.continuation.slot = .ref cont := by
  rw [Layout.entry] at hat
  obtain ⟨hat, -⟩ := Has.append_iff.mp hat
  obtain ⟨hat, htoPoint⟩ := Has.append_iff.mp hat
  obtain ⟨hbegin, hload⟩ := Has.append_iff.mp hat
  obtain ⟨a₁, m₂, hloading, hadds, hcont₁⟩ := reaches_loading hrun hbegin hready hserves hcont hc
    hmode
  have hsame : m.SameBut cont m₂ := hadds.anything.sameBut
  obtain ⟨hlocks₂, hrecorded⟩ := hlocks.sameBut hc hsame
  rw [Nat.zero_add] at hload
  obtain ⟨b, m₃, hloaded, hadds₃, hc₃, hstate, hcont₃⟩ := reaches_loadState (s := []) hrun hbody
    hload henters hready (hserves.adds hadds) hcont₁ (hadds.same hc) hnext (hadds.same ho) hid
    hversion hlocks₂
  rw [hrecorded, hadds.monitors] at hloaded
  -- the number of the point is looked up in the table
  have hadds' := hadds.anything.trans hadds₃
  have ho₃ := hadds'.sameBut.other hc ho rfl
  have hserves₃ := (hserves.adds hadds').withMonitors
    (m.monitors.enterAll (entered l m state.lockState))
  have hpath := hloading.trans hloaded
  rw [Nat.zero_add, List.length_append] at htoPoint
  generalize (l.start bodyStart ++ l.unlessMode .loading written ++ l.announce "loading").length +
    (l.loadState invalid enters).length = k at hpath htoPoint
  have hnumber : straight (Run.callees run) [l.state.load,
      callVirtual Interface.MethodState.getContinuationPoint] (b.placed [] k)
      { m₃ with monitors := m.monitors.enterAll (entered l m state.lockState) } =
        .ok (b.placed [.int state.point] (k + 2))
          { m₃ with monitors := m.monitors.enterAll (entered l m state.lockState) } :=
    straight_stateNumber (a := b.placed [] k) (n := 0) hserves₃ .point (by decide) rfl hstate ho₃
  exact ⟨b, m₃, (hpath.trans (.straight hrun (htoPoint.slice 0 2) hnumber)).trans
    (.tableSwitch (htoPoint.slice 2 1) htarget), hadds', hc₃, hstate, hcont₃⟩

/-! ## The restore block -/

section

variable {p : SuspendPoint} {leases : List (Option Lease)} {base : List Lease} {o : Activation}
  {values : List Value} {cells : List Cell}

/-- Have the usable locals of a point the values that they had in an activation? -/
def HoldsLocals (p : SuspendPoint) (o b : Activation) : Prop :=
  ∀ (slot : Nat) t, p.frame.locals[slot]? = some t → t ≠ .top → b.valueAt slot = o.valueAt slot

/-- A variable that is in use stays when a variable for an array is stored into. -/
theorem array_apart {held : List Lease} {array other : Lease} (hobject : array.kind = .object)
    (hseparate : Separate first (array :: held)) (hother : other ∈ held)
    (hkind : other.kind = .object) : Span.Apart ⟨other.slot, 1⟩ ⟨array.slot, 1⟩ := by
  have hapart := (List.pairwise_cons.mp hseparate.apart).1 other hother
  rw [Lease.span_object hobject, Lease.span_object hkind] at hapart
  exact hapart.symm

/-- Restoring locals leaves the variables of generated code alone. -/
theorem shared_of_locals (hsavable : Savable first p leases m o values)
    (hcells : ∀ c ∈ cells, IsRestored first (leases.filterMap id ++ base) p.savedLocals
      (fun x => o.valueAt x.slot) c) {other : Lease} (hother : other ∈ base)
    (hkind : other.kind = .object) (habove : first ≤ other.slot) (hr : b.valueAt other.slot = .ref r) :
    ((b.storeAll cells).storeAll (nullCells p.nullLocals)).valueAt other.slot = .ref r := by
  have hcells' : (b.storeAll cells).valueAt other.slot = .ref r :=
    valueAt_of_restored hcells hr (fun x hx => hsavable.local_apart hx habove)
      fun array hobject hseparate =>
        array_apart hobject hseparate (List.mem_append_right _ hother) hkind
  refine Activation.valueAt_storeAll_of_apart hcells' fun c hc => ?_
  obtain ⟨slot, hslot, rfl⟩ := List.mem_map.mp hc
  have := hsavable.frame.below ((SuspendPoint.mem_nullLocals hsavable.frame.halves).mp hslot)
  exact .inr (Nat.le_trans this habove)

/-- So does restoring the stack. -/
theorem shared_of_stack (hsavable : Savable first p leases m o values)
    (hseparate : Separate first (leases.filterMap id ++ base))
    (hcells : ∀ c ∈ cells, IsRestored first (leases.filterMap id ++ base)
      (savedStack p.stackToSave leases) (fun x => o.valueAt x.slot) c) {other : Lease}
    (hother : other ∈ base) (hkind : other.kind = .object) (hr : b.valueAt other.slot = .ref r) :
    (b.storeAll cells).valueAt other.slot = .ref r := by
  refine valueAt_of_restored hcells hr (fun x hx => ?_) fun array hobject hseparate' =>
    array_apart hobject hseparate' (List.mem_append_right _ hother) hkind
  refine hsavable.stack_apart (fun lease hlease => ?_) hx
  have hapart := (List.pairwise_append.mp hseparate.apart).2.2 lease hlease other hother
  rw [Lease.span_object hkind] at hapart
  exact hapart.symm

theorem nullLocals_apart (hframe : p.frame.WellFormed first) :
    (nullCells p.nullLocals).Pairwise fun c d => c.span.Apart d.span := by
  refine List.pairwise_map.mpr ?_
  rw [SuspendPoint.nullLocals, nullLocalsFrom_eq hframe.halves]
  refine (zipIdx_increasing p.frame.locals 0).filterMap _ ?_
  rintro ⟨t, slot⟩ ⟨t', slot'⟩ hlt x hx y hy
  obtain ⟨-, hx⟩ := Option.ite_none_right_eq_some.mp hx
  obtain ⟨-, hy⟩ := Option.ite_none_right_eq_some.mp hy
  cases hx
  cases hy
  exact .inl hlt

/-- Saved locals and null locals together are all usable ones. -/
theorem holdsLocals_restored (hsavable : Savable first p leases m o values)
    (hdone : ∀ x ∈ p.savedLocals, b.valueAt x.slot = o.valueAt x.slot) :
    HoldsLocals p o (b.storeAll (nullCells p.nullLocals)) := by
  have hhalves := hsavable.frame.halves
  intro slot t hget ht
  cases hkind : ValueKind.ofSlot? t with
  | some kind =>
    have hx : (⟨kind, slot, castType? t⟩ : SavedValue) ∈ p.savedLocals :=
      (SuspendPoint.mem_savedLocals hhalves).mpr ⟨t, hget, hkind, rfl⟩
    refine Activation.valueAt_storeAll_of_apart (hdone _ hx) fun c hc => ?_
    obtain ⟨null, hnull, rfl⟩ := List.mem_map.mp hc
    have hnull' := (SuspendPoint.mem_nullLocals hhalves).mp hnull
    rw [(hsavable.localKinds _ hx).width_eq]
    rcases Nat.lt_trichotomy slot null with hlt | rfl | hlt
    · exact .inl (SuspendPoint.slot_ne_second hhalves hx hnull' nofun hlt)
    · rw [hget] at hnull'
      cases hnull'
      cases hkind
    · exact .inr hlt
  | none =>
    have hnull : t = .null := by
      cases t with
      | null => rfl
      | top => exact absurd rfl ht
      | _ => cases hkind
    subst hnull
    have hvalue : o.valueAt slot = .null := hsavable.locals slot .null hget
    rw [hvalue]
    exact Activation.valueAt_storeAll_of_mem (nullLocals_apart hsavable.frame) (c := (slot, .null))
      (List.mem_map_of_mem ((SuspendPoint.mem_nullLocals hhalves).mpr hget))

/-- Restoring the stack leaves the locals alone. -/
theorem HoldsLocals.of_stack (h : HoldsLocals p o b) (hsavable : Savable first p leases m o values)
    (hseparate : Separate first (leases.filterMap id ++ base))
    (hcells : ∀ c ∈ cells, IsRestored first (leases.filterMap id ++ base)
      (savedStack p.stackToSave leases) (fun x => o.valueAt x.slot) c) :
    HoldsLocals p o (b.storeAll cells) := by
  intro slot t hget ht
  have hbelow : slot + (o.valueAt slot).width ≤ first := by
    rw [(hsavable.locals slot t hget).width_eq ht]
    exact hsavable.frame.below hget
  refine valueAt_of_restored hcells (h slot t hget ht) (fun x hx => ?_)
    fun array _ hseparate' => .inl (Nat.le_trans hbelow
      (hseparate'.above array (List.mem_cons_self ..)))
  refine hsavable.stack_apart (fun lease hlease => .inl (Nat.le_trans hbelow ?_)) hx
  exact hseparate.above lease (List.mem_append_left _ hlease)

/-- Copying saved values back from the method state. -/
theorem reaches_restoreData (hrun : Plain run) {held : List Lease} {getter : MethodRef}
    {saved : List SavedValue} {value : SavedValue → Value} {code : List Instruction}
    (hat : body.Has k code) (hcode : RestoresData l first held getter saved code)
    (hserves : m.Serves l.settings) (hsaved : Restorable l first held m saved value) {state : Ref}
    {v : Value} (hstate : b.valueAt l.state.slot = .ref state) (hheld : l.state ∈ held)
    (hready : l.Ready first)
    (hgetter : ∀ (b : Activation) (s : List Value) (n : Nat) (rest : List Instruction),
      straight (Run.callees run) (callVirtual getter :: rest) (b.moved (.ref state :: s) n) m =
        straight (Run.callees run) rest (b.moved (v :: s) (n + 1)) m)
    (hdata : m.HoldsData v saved value) :
    ∃ cells, Reaches (Run.callees run) body (b.placed s k) m
        ((b.storeAll cells).placed s (k + code.length)) m ∧
      (∀ c ∈ cells, IsRestored first held saved value c) ∧
      ∀ x ∈ saved, (b.storeAll cells).valueAt x.slot = value x := by
  obtain ⟨cells, hstraight, hcells, hdone⟩ := straight_restoreData (b := b.placed s k) (s := s)
    (n := 0) hserves hcode hsaved hstate hheld hready.state_kind hgetter hdata
  refine ⟨cells, .stores hrun hat hstraight, hcells, fun x hx => ?_⟩
  have := hdone x hx
  rw [Activation.placed_storeAll] at this
  exact this

/-- **The restore block**, up to where it goes on: locals and the variables of the spilled stack
have their values again. -/
theorem reaches_restored (hrun : Plain run) {i : Instruction} {here : Label} {piece : Piece}
    (q : PointCode l first l.shared p i here piece)
    (hat : body.Has k ([.label here] ++ l.announce s!"restoring continuation point {p.id}" ++
      q.locals ++ Layout.restoreNulls p.nullLocals ++ q.stack))
    (hready : l.Ready first) (hfirst : first < 0x10000) (hwords : p.frame.words < 0x10000)
    (hserves : m.Serves l.settings) {cont state : Ref} {lockState : Value}
    (hstate : b.valueAt l.state.slot = .ref state)
    (hcont : b.valueAt l.continuation.slot = .ref cont)
    (hsavable : Savable first p q.leases m o values)
    (hrecorded : m.Recorded l.plan p q.leases lockState (fun x => o.valueAt x.slot) state) :
    ∃ (b' : Activation) (m' : Machine), Reaches (Run.callees run) body (b.placed [] k) m
        (b'.placed [] (k + 1 + (l.announce s!"restoring continuation point {p.id}").length +
          q.locals.length + (Layout.restoreNulls p.nullLocals).length + q.stack.length)) m' ∧
      m.Adds [] m' ∧ b'.valueAt l.continuation.slot = .ref cont ∧ HoldsLocals p o b' ∧
      ∀ lease v, (some lease, v) ∈ q.leases.zip values → b'.valueAt lease.slot = v := by
  obtain ⟨hat, hstack⟩ := Has.append_iff.mp hat
  obtain ⟨hat, hnulls⟩ := Has.append_iff.mp hat
  obtain ⟨hat, hlocals⟩ := Has.append_iff.mp hat
  obtain ⟨hlabel, hannounce⟩ := Has.append_iff.mp hat
  simp only [List.length_append, List.length_singleton, ← Nat.add_assoc] at hlocals hnulls hstack
  have habove : ∀ other ∈ l.shared, first ≤ other.slot := hready.separate.above
  obtain ⟨m', hannounced, hadds⟩ := reaches_announce (a := b) (s := []) hrun hannounce hserves
  have hserves' := hserves.adds hadds
  obtain ⟨localData, stackData, ho, hlocalData, hstackData⟩ := hrecorded.adds hadds
  have hsavable' := hsavable.later hadds.later
  -- the locals that hold values, and those that hold null
  obtain ⟨cells, hrestored, hcells, hdone⟩ := reaches_restoreData (s := []) hrun hlocals
    q.restores_locals hserves' (hsavable'.restorable_locals hfirst (habove _ l.state_mem)) hstate
    (List.mem_append_right _ l.state_mem) hready
    (fun _ _ _ _ => straight_getLocals hserves' ho) hlocalData
  have hshared : ∀ other ∈ l.shared, other.kind = .object → ∀ r, b.valueAt other.slot = .ref r →
      ((b.storeAll cells).storeAll (nullCells p.nullLocals)).valueAt other.slot = .ref r :=
    fun other hother hkind r => shared_of_locals hsavable' hcells hother hkind (habove other hother)
  have hholds := holdsLocals_restored hsavable' hdone
  have hnulled : Reaches (Run.callees run) body _ m' _ m' :=
    .stores (a := b.storeAll cells) (s := []) hrun hnulls (straight_restoreNulls p.nullLocals)
  generalize (b.storeAll cells).storeAll (nullCells p.nullLocals) = b₂ at hnulled hshared hholds
  -- the variables of the spilled stack
  obtain ⟨cells', hrestored', hcells', hdone'⟩ := reaches_restoreData (b := b₂) (s := []) hrun hstack
    q.restores_stack hserves'
    (hsavable'.restorable_stack q.separate hwords l.state_mem hready.state_kind)
    (hshared _ l.state_mem hready.state_kind _ hstate) (List.mem_append_right _ l.state_mem) hready
    (fun _ _ _ _ => straight_getStack hserves' ho) hstackData
  refine ⟨b₂.storeAll cells', m', ((((Reaches.label hlabel).trans hannounced).trans
    hrestored).trans hnulled).trans hrestored', hadds, ?_,
    hholds.of_stack hsavable' q.separate hcells', fun lease v hmem => ?_⟩
  · exact shared_of_stack hsavable' q.separate hcells' l.continuation_mem hready.continuation_kind
      (hshared _ l.continuation_mem hready.continuation_kind _ hcont)
  · rw [← hsavable.spilled lease v hmem]
    obtain ⟨t, ht⟩ := exists_type hsavable.leased hmem
    exact hdone' _ (mem_savedStack.mpr ⟨t, lease, ht, rfl⟩)

/-- **Going on after `suspend`**, in normal mode and with the stack back in place. -/
theorem reaches_resumed (hrun : Plain run) {i : Instruction} {here : Label} {piece : Piece}
    (q : PointCode l first l.shared p i here piece) (hkind : p.kind = .suspend)
    (hat : body.Has k piece.block) {target : Nat}
    (htarget : body.positions.find q.resume = .ok target) (hready : l.Ready first)
    (hfirst : first < 0x10000) (hwords : p.frame.words < 0x10000) (hserves : m.Serves l.settings)
    {cont state : Ref} {c : Continuation Ref} {lockState : Value}
    (hstate : b.valueAt l.state.slot = .ref state)
    (hcont : b.valueAt l.continuation.slot = .ref cont)
    (hc : m.object? cont = some (.continuation c)) (hsavable : Savable first p q.leases m o values)
    (hrecorded : m.Recorded l.plan p q.leases lockState (fun x => o.valueAt x.slot) state) :
    ∃ (b' : Activation) (m' : Machine), Reaches (Run.callees run) body (b.placed [] k) m
        (b'.placed values.reverse target) m' ∧ m.Adds [cont] m' ∧
      m'.object? cont = some (.continuation { c with mode := .normal }) ∧
      b'.valueAt l.continuation.slot = .ref cont ∧ HoldsLocals p o b' := by
  rw [q.block_eq, Layout.restoreBlock, Layout.resumed, hkind] at hat
  obtain ⟨hat, hgoto⟩ := Has.append_iff.mp hat
  obtain ⟨hat, hresumed⟩ := Has.append_iff.mp hat
  obtain ⟨hmode, hreload⟩ := Has.append_iff.mp hresumed
  obtain ⟨b', m', hrestored, hadds, hcont', hholds, hleases⟩ := reaches_restored hrun q hat hready
    hfirst hwords hserves hstate hcont hsavable hrecorded
  simp only [List.length_append, List.length_singleton, ← Nat.add_assoc] at hmode hreload hgoto
  have hnormal := Reaches.block (a := b') (s := []) hrun hmode (straight_toMode
    (a := b'.placed [] _) (hserves.adds hadds) hcont' (hadds.same hc) .normal)
  have hreloaded := Reaches.block (a := b') (s := [])
    (m := m'.put cont (.continuation { c with mode := .normal })) hrun hreload
    (straight_reloadStack (a := b'.placed [] _) hsavable.isSpilled hleases)
  rw [List.append_nil] at hreloaded
  exact ⟨b', _, ((hrestored.trans hnormal).trans hreloaded).trans (.goto hgoto htarget),
    hadds.anything.trans (.put m' (hadds.same hc) (.continuation c _)),
    Machine.object?_put_self (hadds.same hc), hcont', hholds⟩

/-- **Going on before a call**, still loading and with the stack back in place. -/
theorem reaches_recalled (hrun : Plain run) {i : Instruction} {here : Label} {piece : Piece}
    (q : PointCode l first l.shared p i here piece) (hkind : p.kind = .invoke)
    (hat : body.Has k piece.block) {target : Nat}
    (htarget : body.positions.find q.resume = .ok target)
    (hreload : body.Has target (.label q.resume :: reloadStack q.leases)) (hready : l.Ready first)
    (hfirst : first < 0x10000) (hwords : p.frame.words < 0x10000) (hserves : m.Serves l.settings)
    {cont state : Ref} {lockState : Value} (hstate : b.valueAt l.state.slot = .ref state)
    (hcont : b.valueAt l.continuation.slot = .ref cont)
    (hsavable : Savable first p q.leases m o values)
    (hrecorded : m.Recorded l.plan p q.leases lockState (fun x => o.valueAt x.slot) state) :
    ∃ (b' : Activation) (m' : Machine), Reaches (Run.callees run) body (b.placed [] k) m
        (b'.placed values.reverse (target + 1 + q.leases.length)) m' ∧ m.Adds [] m' ∧
      b'.valueAt l.continuation.slot = .ref cont ∧ HoldsLocals p o b' := by
  rw [q.block_eq, Layout.restoreBlock, Layout.resumed, hkind, List.append_nil] at hat
  obtain ⟨hat, hgoto⟩ := Has.append_iff.mp hat
  obtain ⟨b', m', hrestored, hadds, hcont', hholds, hleases⟩ := reaches_restored hrun q hat hready
    hfirst hwords hserves hstate hcont hsavable hrecorded
  simp only [List.length_append, List.length_singleton, ← Nat.add_assoc] at hgoto
  obtain ⟨-, hreload'⟩ := Has.cons_iff.mp hreload
  have hreloaded := Reaches.block (a := b') (s := []) (m := m') hrun hreload'
    (straight_reloadStack (a := b'.placed [] _) hsavable.isSpilled hleases)
  rw [List.append_nil, reloadStack, List.length_map] at hreloaded
  exact ⟨b', m', ((hrestored.trans (.goto hgoto htarget)).trans (.label hreload)).trans hreloaded,
    hadds, hcont', hholds⟩

end

end Body

end Resumption
