import Resumption.Proofs.Instrument.Monitors
import Resumption.Proofs.Instrument.Savable

/-!
# From a point to the return

What a save sequence does, from the point to the return of a placeholder.

* **`returns_save`**: the end of both sequences: hand the state over, leave the monitors, return.
* **`returns_suspend`**: the sequence in place of `suspend`.
* **`returns_invoke`**: the sequence in place of a call, when the call returned while saving.
-/

namespace Resumption

/-- What is known of the monitors of an activation: its lock state, and what is held once its
monitors are left. -/
def Layout.Locks (l : Layout) (a : Activation) (m : Machine) (lockState : Value) (left : Monitors) :
    Prop :=
  match l.monitors with
  | some v => v.Distinct ∧ ∃ lock locks, lockState = .ref lock ∧
      a.valueAt v.lockState.slot = .ref lock ∧ m.object? lock = some (.lockState locks) ∧
      locks.monitors.length < 2 ^ 31 ∧ m.monitors.leave? locks.monitors.reverse = some left
  | none => lockState = .null ∧ left = m.monitors

theorem Layout.Locks.adds {l : Layout} {a : Activation} {m m' : Machine} {lockState : Value}
    {left : Monitors} {changed : List Ref} (h : l.Locks a m lockState left)
    (hadds : m.Adds changed m')
    (hchanged : ∀ r ∈ changed, ∀ locks, m.object? r ≠ some (.lockState locks)) :
    l.Locks a m' lockState left := by
  simp only [Locks, hadds.monitors] at h ⊢
  split at h
  · obtain ⟨hv, lock, locks, hlock, hat, ho, hsize, hleave⟩ := h
    exact ⟨hv, lock, locks, hlock, hat,
      hadds.objects lock _ (fun hin => hchanged lock hin locks ho) ho, hsize, hleave⟩
  · exact h

/-- The variable of the lock state is not touched. -/
theorem Layout.Locks.of_valueAt {l : Layout} {a b : Activation} {m : Machine} {lockState : Value}
    {left : Monitors} (h : l.Locks a m lockState left)
    (hsame : ∀ v r, l.monitors = some v → a.valueAt v.lockState.slot = .ref r →
      b.valueAt v.lockState.slot = .ref r) : l.Locks b m lockState left := by
  simp only [Locks] at h ⊢
  split at h
  · rename_i v hmonitors
    obtain ⟨hv, lock, locks, hlock, hat, ho, hrest⟩ := h
    exact ⟨hv, lock, locks, hlock, hsame v lock hmonitors hat, ho, hrest⟩
  · exact h

namespace Body

variable {run : MethodRunner} {code : Code} {body : Body} {a : Activation} {s : List Value}
  {m : Machine} {l : Layout} {k : Nat}

/-! ## The end of a save sequence -/

theorem straight_commit (run : MethodRunner) {n : Nat} (hserves : m.Serves l.settings) :
    ∃ m', straight (Run.callees run) l.commit (a.moved s n) m =
        .ok (a.moved s (n + l.commit.length)) m' ∧ m.Adds [] m' := by
  rw [Layout.commit]
  cases hallocator : l.settings.allocator with
  | instruction => exact ⟨m, rfl, .refl m⟩
  | custom owner =>
    have hfound : m.natives.lookup (Interface.commit owner) = some .commit :=
      hserves.allocator owner hallocator (_, .commit) (by
        rw [Machine.allocatorNatives]
        exact List.mem_append_right _ (List.mem_cons_self ..))
    have hcommit : Native.run [] .commit m = .ok none { m with
        pool := { m.pool with pending := 0, commits := m.pool.commits + 1 } } := rfl
    exact ⟨_, straight_native (s := s) hfound hcommit rfl rfl rfl, .aside m _ rfl⟩

/-- A placeholder is returned. -/
theorem returns_placeholder {callees : Callees} {result : Option FieldType}
    (hat : body.Has k (placeholderReturn result)) :
    Returns callees body (a.placed [] k) m (result.map Value.zero) m := by
  -- all but the last instruction are pushed constants
  have hvalue : ∀ {i j : Instruction} {v : Value}, body.Has k [i, j] →
      Step.execute callees i (a.placed [] k) m = .ok (.next, (a.placed [v] k)) m →
      Step.execute callees j (a.placed [v] (k + 1)) m = .ok (.done (some v), a.placed [] (k + 1)) m →
      Returns callees body (a.placed [] k) m (some v) m := by
    intro i j v hat hfirst hsecond
    obtain ⟨hi, hj⟩ := Has.cons_iff.mp hat
    exact ⟨a.placed [v] (k + 1), m, .single (advance_next hi hfirst),
      advance_done hj.getElem? hsecond⟩
  match result with
  | none => exact ⟨_, m, .refl _ _, advance_done (b := a.placed [] k) hat.getElem? rfl⟩
  | some (.base .long) | some (.base .float) | some (.base .double) | some (.ref _)
  | some (.base .boolean) | some (.base .byte) | some (.base .char) | some (.base .short)
  | some (.base .int) => exact hvalue hat rfl rfl

/-- Leaving the monitors, if the body has any. -/
theorem reaches_exits (hrun : Plain run) (hbody : ofCode code = .ok body)
    {exits : List Instruction} (hat : body.Has k exits)
    (hexits : IsMonitorLoop l Layout.exitLoop exits) (hserves : m.Serves l.settings)
    {lockState : Value} {left : Monitors} (hlocks : l.Locks a m lockState left) :
    ∃ (b : Activation) (m' : Machine), Reaches (Run.callees run) body (a.placed s k) m
        (b.placed s (k + exits.length)) { m' with monitors := left } ∧ m.Adds [] m' := by
  simp only [IsMonitorLoop, Layout.Locks] at hexits hlocks
  split at hexits
  · rename_i v hmonitors
    obtain ⟨start, stop, rfl⟩ := hexits
    simp only [hmonitors] at hlocks
    obtain ⟨hv, lock, locks, -, hlock, ho, hsize, hleave⟩ := hlocks
    exact reaches_exitLoop hrun hbody hat hv hserves hlock ho hsize hleave
  · rename_i hmonitors
    simp only [hmonitors] at hlocks
    obtain ⟨-, rfl⟩ := hlocks
    subst hexits
    exact ⟨a, m, .refl _ _, .refl m⟩

/-- **Handing the state over and returning.** -/
theorem returns_save (hrun : Plain run) (hbody : ofCode code = .ok body) {first : Nat}
    {p : SuspendPoint} {leases : List (Option Lease)} {exits : List Instruction}
    {values : List Value} (hat : body.Has k (l.save p leases exits))
    (hexits : IsMonitorLoop l Layout.exitLoop exits) (hserves : m.Serves l.settings) {cont : Ref}
    {c : Continuation Ref} (hcont : a.valueAt l.continuation.slot = .ref cont)
    (hc : m.object? cont = some (.continuation c)) {lockState : Value} {left : Monitors}
    (hlocks : l.Locks a m lockState left) (hsavable : Savable first p leases m a values)
    (hfirst : first < 0x10000) (hwords : p.frame.words < 0x10000) :
    ∃ m' r, Returns (Run.callees run) body (a.placed [] k) m
        (l.plan.method.descriptor.result.map Value.zero) { m' with monitors := left } ∧
      m.Adds [cont] m' ∧ m'.object? cont = some (.continuation (c.push r)) ∧
      m'.Recorded l.plan p leases lockState (fun x => a.valueAt x.slot) r := by
  have hat' : body.Has k (l.pushState p leases ++ (l.commit ++ (exits ++
      placeholderReturn l.plan.method.descriptor.result))) := by
    rw [Layout.save, List.append_assoc, List.append_assoc] at hat
    exact hat
  obtain ⟨hpush, hrest⟩ := Has.append_iff.mp hat'
  obtain ⟨hcommit, hrest⟩ := Has.append_iff.mp hrest
  obtain ⟨hexit, hreturn⟩ := Has.append_iff.mp hrest
  have hlock : match l.monitors with
      | some v => a.valueAt v.lockState.slot = lockState ∧ lockState ≠ .top
      | none => lockState = .null := by
    simp only [Layout.Locks] at hlocks
    split at hlocks
    · obtain ⟨-, lock, locks, rfl, hat, -⟩ := hlocks
      exact ⟨hat, nofun⟩
    · exact hlocks.1
  have hlocalsSize : p.savedLocals.length < 2 ^ 31 := by
    have := SuspendPoint.savedLocals_length hsavable.frame.halves
    rw [hsavable.frame.length] at this
    omega
  have hstackSize : (savedStack p.stackToSave leases).length < 2 ^ 31 := by
    have := savedStack_length p.stackToSave leases
    have := p.stackToSave_length hwords
    omega
  obtain ⟨m₁, r, hrun₁, hadds₁, hc₁, hrecorded₁⟩ := straight_pushState run (a.placed [] k) [] 0
    hserves hcont hc hlock hsavable.localKinds hsavable.stackKinds hlocalsSize hstackSize
  obtain ⟨m₂, hrun₂, hadds₂⟩ := straight_commit run (l := l)
    (a := a.placed [] (k + (l.pushState p leases).length)) (s := []) (n := 0) (hserves.adds hadds₁)
  have hlocks₂ : l.Locks a m₂ lockState left := (hlocks.adds hadds₁ fun r hr locks ho => by
    rw [List.mem_singleton.mp hr, hc] at ho
    cases ho).adds hadds₂ nofun
  obtain ⟨b, m₃, hreach₃, hadds₃⟩ := reaches_exits (s := []) hrun hbody hexit hexits
    ((hserves.adds hadds₁).adds hadds₂) hlocks₂
  have hadds₂₃ := hadds₂.trans hadds₃
  refine ⟨m₃, r, ?_, hadds₁.trans hadds₂₃.anything, hadds₂₃.same hc₁, hrecorded₁.adds hadds₂₃⟩
  exact (((Reaches.block hrun hpush hrun₁).trans (.block hrun hcommit hrun₂)).trans
    hreach₃).returns (returns_placeholder hreturn)

/-! ## Spilling at a point -/

/-- The activation once the stack is in the leased variables. -/
def spilled (a : Activation) (leases : List (Option Lease)) (values : List Value) : Activation :=
  a.storeAll (spillCells leases values).reverse

/-- What is apart from the leased variables is still there. -/
theorem valueAt_spilled {leases : List (Option Lease)} {values : List Value}
    (hspilled : List.Forall₂ Spilled leases values) {slot : Nat} {v : Value}
    (hv : a.valueAt slot = v)
    (hapart : ∀ lease ∈ leases.filterMap id, Span.Apart ⟨slot, v.width⟩ lease.span) :
    (spilled a leases values).valueAt slot = v := by
  refine Activation.valueAt_storeAll_of_apart hv fun c hc => ?_
  obtain ⟨lease, hmem, hslot⟩ := mem_spillCells.mp (List.mem_reverse.mp hc)
  have hkind := (List.forall₂_iff_zip.mp hspilled).2 hmem
  rw [Cell.span, hslot, hkind.width_eq]
  exact hapart lease (List.mem_filterMap.mpr ⟨some lease, (List.of_mem_zip hmem).1, rfl⟩)

/-- A point whose stack was spilled can be saved. -/
theorem savable_spilled {first : Nat} {base : List Lease} {p : SuspendPoint}
    {leases : List (Option Lease)} {values : List Value} (hframe : p.frame.WellFormed first)
    (hleased : List.Forall₂ Leased p.stackToSave leases)
    (hseparate : Separate first (leases.filterMap id ++ base))
    (hlocals : ∀ (slot : Nat) t, p.frame.locals[slot]? = some t → (a.valueAt slot).Conforms m t)
    (hstack : List.Forall₂ (fun t v => v.Conforms m t) p.stackToSave values) :
    Savable first p leases m (spilled a leases values) values ∧
      ∀ (slot : Nat) t, p.frame.locals[slot]? = some t → t ≠ .top →
        (spilled a leases values).valueAt slot = a.valueAt slot := by
  have hne : ∀ t ∈ p.stackToSave, t ≠ .top := fun t ht => by
    rw [SuspendPoint.stackToSave] at ht
    split at ht
    · exact hframe.stack t (List.mem_reverse.mp ht)
    · exact hframe.stack t (List.mem_of_mem_tail (List.mem_reverse.mp ht))
  have hspilled := spilled_of_leased hleased hstack hne
  obtain ⟨hapart, -, -⟩ := List.pairwise_append.mp hseparate.apart
  have hsame : ∀ (slot : Nat) t, p.frame.locals[slot]? = some t → t ≠ .top →
      (spilled a leases values).valueAt slot = a.valueAt slot := by
    intro slot t hget ht
    refine valueAt_spilled hspilled rfl fun lease hlease => .inl ?_
    rw [(hlocals slot t hget).width_eq ht]
    exact Nat.le_trans (hframe.below hget)
      (hseparate.above lease (List.mem_append_left _ hlease))
  refine ⟨⟨hframe, hleased, fun slot t hget => ?_, hstack, fun lease v hmem => ?_⟩, hsame⟩
  · by_cases ht : t = .top
    · subst ht
      trivial
    · rw [hsame slot t hget ht]
      exact hlocals slot t hget
  · exact valueAt_spill hspilled hapart hmem

/-! ## The sequences -/

theorem straight_toMode {n : Nat} {cont : Ref} {c : Continuation Ref}
    (hserves : m.Serves l.settings) (hcont : a.valueAt l.continuation.slot = .ref cont)
    (hc : m.object? cont = some (.continuation c)) (mode : Mode) :
    straight (Run.callees run) (l.setMode mode) (a.moved s n) m =
      .ok (a.moved s (n + (l.setMode mode).length)) (m.put cont (.continuation { c with mode })) := by
  simp only [Layout.setMode, Lease.load]
  rw [straight_load hcont (by simp), straight_pushInt, straight_setMode hserves hc, straight_nil]
  rfl

/-- A step over an announcement. -/
theorem reaches_announce (hrun : Plain run) {what : String} (hat : body.Has k (l.announce what))
    (hserves : m.Serves l.settings) :
    ∃ m', Reaches (Run.callees run) body (a.placed s k) m
        (a.placed s (k + (l.announce what).length)) m' ∧ m.Adds [] m' := by
  obtain ⟨m', hstraight, hadds⟩ := straight_announce run (a.placed s k) s 0 hserves what
  exact ⟨m', .block hrun hat hstraight, hadds⟩

section

variable {first : Nat} {p : SuspendPoint} {cont : Ref} {i : Instruction} {here : Label}
  {piece : Piece} {values : List Value} {lockState : Value} {left : Monitors}

/-- Spilling leaves the variables of generated code alone. -/
theorem shared_spilled (q : PointCode l first l.shared p i here piece)
    (hspilled : List.Forall₂ Spilled q.leases values) {other : Lease} (hother : other ∈ l.shared)
    (hkind : other.kind = .object) {r : Ref} (hr : a.valueAt other.slot = .ref r) :
    (spilled a q.leases values).valueAt other.slot = .ref r := by
  refine valueAt_spilled hspilled hr fun lease hlease => ?_
  have hapart := q.shared_apart hother lease hlease
  rw [Lease.span_object hkind] at hapart
  exact hapart.symm

theorem continuation_spilled (hready : l.Ready first)
    (q : PointCode l first l.shared p i here piece)
    (hspilled : List.Forall₂ Spilled q.leases values)
    (hcont : a.valueAt l.continuation.slot = .ref cont) :
    (spilled a q.leases values).valueAt l.continuation.slot = .ref cont :=
  shared_spilled q hspilled l.continuation_mem hready.continuation_kind hcont

theorem locks_spilled (hready : l.Ready first) (q : PointCode l first l.shared p i here piece)
    (hspilled : List.Forall₂ Spilled q.leases values) (hlocks : l.Locks a m lockState left) :
    l.Locks (spilled a q.leases values) m lockState left :=
  hlocks.of_valueAt fun v _ hmonitors hr => shared_spilled q hspilled (l.lockState_mem hmonitors)
    (hready.lockState_kind v hmonitors) hr

end

/-- **The sequence in place of `suspend`.** -/
theorem returns_suspend (hrun : Plain run) (hbody : ofCode code = .ok body) {first : Nat}
    {p : SuspendPoint} {i : Instruction} {here : Label} {piece : Piece}
    (q : PointCode l first l.shared p i here piece)
    (hat : body.Has k (l.suspendSequence p q.leases q.resume q.exits)) (hready : l.Ready first)
    (hfirst : first < 0x10000) (hwords : p.frame.words < 0x10000) (hserves : m.Serves l.settings)
    {cont : Ref} {c : Continuation Ref} (hcont : a.valueAt l.continuation.slot = .ref cont)
    (hc : m.object? cont = some (.continuation c)) {lockState : Value} {left : Monitors}
    (hlocks : l.Locks a m lockState left) {receiver : Value} {values : List Value}
    (hreceiver : receiver.width = 1) (hstack : a.stack = receiver :: values.reverse)
    (hsavable : Savable first p q.leases m (spilled a q.leases values) values) :
    ∃ m' r, Returns (Run.callees run) body (a.placed a.stack k) m
        (l.plan.method.descriptor.result.map Value.zero) { m' with monitors := left } ∧
      m.Adds [cont] m' ∧
      m'.object? cont = some (.continuation (({ c with mode := .saving } : Continuation Ref).push r)) ∧
      m'.Recorded l.plan p q.leases lockState
        (fun x => (spilled a q.leases values).valueAt x.slot) r := by
  have hspilled := hsavable.isSpilled
  have hcont' := continuation_spilled hready q hspilled hcont
  have hlocks' := locks_spilled hready q hspilled hlocks
  rw [Layout.suspendSequence] at hat
  obtain ⟨hat, -⟩ := Has.append_iff.mp hat
  obtain ⟨hat, hsave⟩ := Has.append_iff.mp hat
  obtain ⟨hat, hannounce⟩ := Has.append_iff.mp hat
  obtain ⟨hat, hmode⟩ := Has.append_iff.mp hat
  obtain ⟨hpop, hspill⟩ := Has.append_iff.mp hat
  simp only [List.length_append, List.length_singleton, ← Nat.add_assoc] at hmode hannounce hsave
  -- the sequence is cut into its parts, and the run goes from one to the next
  have hpopped : Reaches (Run.callees run) body (a.placed a.stack k) m
      (a.placed values.reverse (k + 1)) m := by
    rw [hstack]
    exact .block hrun hpop ((straight_pop hreceiver).trans straight_nil)
  have hspilling : Reaches (Run.callees run) body (a.placed values.reverse (k + 1)) m
      ((spilled a q.leases values).placed [] (k + 1 + (spillStack q.leases).length)) m := by
    rw [← List.append_nil values.reverse]
    exact .stores hrun hspill (straight_spillStack hspilled)
  generalize spilled a q.leases values = b at *
  generalize hput : m.put cont (.continuation { c with mode := .saving }) = m₁
  have hadds₁ : m.Adds [cont] m₁ := hput ▸ .put m hc (.continuation c _)
  have hc₁ : m₁.object? cont = some (.continuation { c with mode := .saving }) :=
    hput ▸ Machine.object?_put_self hc
  have hsaving := Reaches.block (a := b) (s := []) hrun hmode
    (straight_toMode (a := b.placed [] _) hserves hcont' hc .saving)
  rw [hput] at hsaving
  obtain ⟨m₂, hannounced, hadds₂⟩ := reaches_announce (a := b) (s := []) hrun hannounce
    (hserves.adds hadds₁)
  have hadds := hadds₁.trans hadds₂.anything
  obtain ⟨m', r, hreturns, hadds₃, hc₃, hrecorded⟩ := returns_save hrun hbody hsave q.exits_loop
    (hserves.adds hadds) hcont' (hadds₂.same hc₁) ((hlocks'.adds hadds fun r hr locks ho => by
      rw [List.mem_singleton.mp hr, hc] at ho
      cases ho)) (hsavable.later hadds.later) hfirst hwords
  exact ⟨m', r, (((hpopped.trans hspilling).trans hsaving).trans hannounced).returns hreturns,
    hadds.trans hadds₃, hc₃, hrecorded⟩

/-- A call that returns. -/
theorem straight_call {kind : CallKind} {ref : MethodRef} {rest : List Instruction} {n : Nat}
    {result : Option Value} {m' : Machine} {count : Nat}
    (hcount : count = ref.descriptor.parameters.length + if kind = .static then 0 else 1)
    (henough : count ≤ s.length)
    (hcall : Run.call run kind ref (s.take count).reverse m = .ok result m') :
    straight (Run.callees run) (.invoke kind ref :: rest) (a.moved s n) m =
      straight (Run.callees run) rest (a.moved (result.toList ++ s.drop count) (n + 1)) m' := by
  rw [straight_cons (Step.execute_invoke (a.moved s n) m hcount henough hcall)]
  rfl

/-- Going on in a mode that is expected. -/
theorem straight_inMode {n : Nat} {cont : Ref} {c : Continuation Ref} {otherwise : Label}
    (hserves : m.Serves l.settings) (hcont : a.valueAt l.continuation.slot = .ref cont)
    (hc : m.object? cont = some (.continuation c)) :
    straight (Run.callees run) (l.unlessMode c.mode otherwise) (a.moved s n) m =
      .ok (a.moved s (n + (l.unlessMode c.mode otherwise).length)) m := by
  have hequal : Comparison.ne.holds (compare c.mode.toInt32.toInt c.mode.toInt32.toInt) = false := by
    rw [Int.compare_eq_eq.mpr rfl]
    rfl
  simp only [Layout.unlessMode, Lease.load]
  rw [straight_load hcont (by simp), straight_getMode hserves hc, straight_pushInt,
    straight_ifInt hequal, straight_nil]
  rfl

/-- **The sequence in place of a call**, when the call returned while saving. -/
theorem returns_invoke (hrun : Plain run) (hbody : ofCode code = .ok body) {first : Nat}
    {p : SuspendPoint} {kind : CallKind} {ref : MethodRef} {here after : Label} {piece : Piece}
    (q : PointCode l first l.shared p (.invoke kind ref) here piece)
    (hat : body.Has k (l.invokeSequence p (.invoke kind ref) q.leases q.resume after q.exits))
    (hready : l.Ready first) (hfirst : first < 0x10000) (hwords : p.frame.words < 0x10000)
    {cont : Ref} (hcont : a.valueAt l.continuation.slot = .ref cont) {values : List Value}
    (hstack : a.stack = values.reverse)
    (hsavable : Savable first p q.leases m (spilled a q.leases values) values) {count : Nat}
    (hcount : count = ref.descriptor.parameters.length + if kind = .static then 0 else 1)
    (henough : count ≤ values.length) {result : Option Value} {m₁ : Machine}
    (hcall : Run.call run kind ref (values.reverse.take count).reverse m = .ok result m₁)
    (hresult : result.map Value.width = ref.descriptor.result.map FieldType.width)
    (hlater : m.Precedes m₁) (hserves : m₁.Serves l.settings) {c : Continuation Ref}
    (hc : m₁.object? cont = some (.continuation c)) (hmode : c.mode = .saving) {lockState : Value}
    {left : Monitors} (hlocks : l.Locks a m₁ lockState left) :
    ∃ m' r, Returns (Run.callees run) body (a.placed a.stack k) m
        (l.plan.method.descriptor.result.map Value.zero) { m' with monitors := left } ∧
      m₁.Adds [cont] m' ∧ m'.object? cont = some (.continuation (c.push r)) ∧
      m'.Recorded l.plan p q.leases lockState
        (fun x => (spilled a q.leases values).valueAt x.slot) r := by
  have hwidths : List.Forall₂ (fun t v => Value.width v = SlotType.width t) p.stackToSave values := by
    refine List.forall₂_iff_zip.mpr ⟨hsavable.stack.length_eq, fun {t v} hmem => ?_⟩
    exact ((List.forall₂_iff_zip.mp hsavable.stack).2 hmem).width_eq
      (hsavable.stack_ne_top t (List.of_mem_zip hmem).1)
  have hspilled := hsavable.isSpilled
  have hcont' := continuation_spilled hready q hspilled hcont
  have hlocks' := locks_spilled hready q hspilled hlocks
  rw [Layout.invokeSequence] at hat
  obtain ⟨hat, -⟩ := Has.append_iff.mp hat
  obtain ⟨hat, hsave⟩ := Has.append_iff.mp hat
  obtain ⟨hat, hclear⟩ := Has.append_iff.mp hat
  obtain ⟨hat, hannounce⟩ := Has.append_iff.mp hat
  obtain ⟨hat, hunless⟩ := Has.append_iff.mp hat
  obtain ⟨hat, hinvoke⟩ := Has.append_iff.mp hat
  obtain ⟨hat, hreload⟩ := Has.append_iff.mp hat
  obtain ⟨hspill, hlabel⟩ := Has.append_iff.mp hat
  simp only [List.length_append, List.length_singleton, ← Nat.add_assoc] at hreload hinvoke
  simp only [List.length_append, List.length_singleton, ← Nat.add_assoc] at hunless hannounce
  simp only [List.length_append, List.length_singleton, ← Nat.add_assoc] at hclear hsave
  -- the sequence is cut into its parts, and the run goes from one to the next
  have hspilling : Reaches (Run.callees run) body (a.placed a.stack k) m
      ((spilled a q.leases values).placed [] (k + (spillStack q.leases).length)) m := by
    rw [hstack, ← List.append_nil values.reverse]
    exact .stores hrun hspill (straight_spillStack hspilled)
  have hreloading : Reaches (Run.callees run) body
      ((spilled a q.leases values).placed [] (k + (spillStack q.leases).length)) m
      ((spilled a q.leases values).placed (values.reverse ++ [])
        (k + (spillStack q.leases).length + 1 + (reloadStack q.leases).length)) m :=
    (Reaches.label hlabel).trans (.block hrun hreload
      (straight_reloadStack (a := (spilled a q.leases values).placed [] _) hspilled hsavable.spilled))
  rw [List.append_nil] at hreloading
  generalize spilled a q.leases values = b at *
  have hcalling := Reaches.block (a := b) (s := values.reverse) hrun hinvoke
    ((straight_call (a := b.placed _ _) hcount (by rw [List.length_reverse]; exact henough)
      hcall).trans straight_nil)
  have hsaving := Reaches.block (a := b) (s := result.toList ++ values.reverse.drop count) hrun
    (hmode ▸ hunless) (straight_inMode (a := b.placed _ _) hserves hcont' hc)
  rw [hmode] at hsaving
  obtain ⟨m₂, hannounced, hadds₂⟩ := reaches_announce (a := b)
    (s := result.toList ++ values.reverse.drop count) hrun hannounce hserves
  have hpath := (((hspilling.trans hreloading).trans hcalling).trans hsaving).trans hannounced
  rw [List.drop_reverse, ← List.append_nil (result.toList ++ _), hcount] at hpath
  replace hpath := hpath.trans (.block hrun hclear (straight_clearAfterCall hwidths hresult))
  obtain ⟨m', r, hreturns, hadds₃, hc₃, hrecorded⟩ := returns_save hrun hbody hsave q.exits_loop
    (hserves.adds hadds₂) hcont' (hadds₂.same hc) (hlocks'.adds hadds₂ nofun)
    ((hsavable.later hlater).later hadds₂.later) hfirst hwords
  exact ⟨m', r, hpath.returns hreturns, hadds₂.anything.trans hadds₃, hc₃, hrecorded⟩

end Body

end Resumption
