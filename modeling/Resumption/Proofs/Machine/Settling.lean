import Resumption.Proofs.Machine.Events
import Resumption.Proofs.Machine.SaveCode

/-!
# Runs settle what they allocate

On a machine with guarded code, each method state that is pushed is committed, and nothing that was
allocated for a frame is pending unless an activation is inside of the code for the frame
(`Logged.Settles`). A run can break off there (`BrokenOff`), when the machine gives it up: a variable
to be saved holds nothing, or the steps are used up. Then the frame is left as it is.

`Logged.Accounts` says this of a computation in which frames may be owed: a frame is owed from its push
to its commit. There is a rule for each way to put computations together, and each part of the
interpreter has a lemma, from natives up to calls at any depth (`Logged.runMethod_settles`).
-/

namespace Resumption

variable {α β : Type} {N : List (MethodRef × Native)} {F : SaveCodes}

/-- Was a method state pushed? -/
def Event.isPush : Event → Bool
  | .done .push => true
  | _ => false

/-- How many method states were pushed. -/
def pushes (events : List Event) : Nat := events.countP Event.isPush

theorem pushes_append (es es' : List Event) : pushes (es ++ es') = pushes es + pushes es' :=
  List.countP_append

theorem pushes_step (body : Body) (a : Activation) (m : Machine) (es : List Event) :
    pushes (.step body a m :: es) = pushes es := List.countP_cons_of_neg (by simp [Event.isPush])

/-- Any method state may be made, but frames are saved by the code for it only. -/
def Discipline.guarded (N : List (MethodRef × Native)) (F : SaveCodes) : Discipline where
  key _ := True
  code _ method := ∀ c, method.code = some c → Guarded N F c.instructions.toList

/-- Nothing is pending on the machine, and its code is guarded. -/
structure Machine.Settled (N : List (MethodRef × Native)) (F : SaveCodes) (m : Machine) : Prop where
  /-- the same methods are native -/
  natives : m.natives = N
  /-- the machine is sound -/
  sound : m.Sound (.guarded N F)
  /-- nothing is pending -/
  pending : m.pool.pending = 0

/-- The machine gave a run up inside of code that saves a frame. -/
inductive BrokenOff (F : SaveCodes) : Abrupt → List Event → Prop
  /-- a variable to be saved holds nothing -/
  | empty {body : Body} {a : Activation} {m : Machine} {events : List Event} {kind : ValueKind}
      {slot : Nat} (hlast : events.getLast? = some (.step body a m))
      (hin : InFrame F body.instructions.toList a.index)
      (hi : body.instructions[a.index]? = some (.load kind slot)) (hv : a.valueAt slot = .top) :
      BrokenOff F (.failure (.badCode a.method a.index (.uninitializedLocal slot))) events
  /-- the steps are used up -/
  | steps {body : Body} {a : Activation} {m : Machine} {events : List Event} {limit : Nat}
      (hlast : events.getLast? = some (.step body a m))
      (hin : InFrame F body.instructions.toList a.index) :
      BrokenOff F (.failure (.stepLimit limit)) events

namespace BrokenOff

variable {e : Abrupt} {es : List Event}

theorem append (h : BrokenOff F e es) (before : List Event) : BrokenOff F e (before ++ es) := by
  cases h with
  | empty hlast hin hi hv =>
    exact .empty (by rw [List.getLast?_append, hlast]; rfl) hin hi hv
  | steps hlast hin => exact .steps (by rw [List.getLast?_append, hlast]; rfl) hin

/-- No exception was thrown. -/
theorem failed (h : BrokenOff F e es) : ∃ f, e = .failure f := by
  cases h <;> exact ⟨_, rfl⟩

end BrokenOff

namespace Logged

/-- What a computation does to the counts of an allocator: `owed` frames were pushed before it and
not committed, and `left` are after it. With a result it leads to a machine that satisfies `Q`. -/
structure Accounts (F : SaveCodes) (owed : Nat) (left : α → Nat) (Q : α → Machine → Prop)
    (x : Logged α) (m : Machine) : Prop where
  /-- nothing is pending whenever an activation is outside of a save sequence -/
  moments : ∀ body a m', .step body a m' ∈ x.events m →
    ¬ InFrame F body.instructions.toList a.index → m'.pool.pending = 0
  /-- if it returns, what was pushed is counted -/
  returns : ∀ r m', x.run m = .ok r m' → Q r m' ∧
    m'.pool.commits + left r = m.pool.commits + owed + pushes (x.events m)
  /-- if it fails, either all is counted or it was given up in a save sequence -/
  fails : ∀ e m', x.run m = .error e m' →
    m'.pool.pending = 0 ∧ m'.pool.commits = m.pool.commits + owed + pushes (x.events m) ∨
      BrokenOff F e (x.events m)

/-- No frame is owed before the computation or after it. -/
abbrev Settles (N : List (MethodRef × Native)) (F : SaveCodes) (x : Logged α) (m : Machine) : Prop :=
  Accounts F 0 (fun _ => 0) (fun _ m' => m'.Settled N F) x m

namespace Accounts

variable {owed : Nat} {left : α → Nat} {Q : α → Machine → Prop} {left' : β → Nat}
  {Q' : β → Machine → Prop} {x : Logged α} {m : Machine}

theorem pure (left : α → Nat) {r : α} (h : Q r m) :
    Accounts F (left r) left Q (Pure.pure r) m where
  moments := fun _ _ _ hmem => absurd hmem List.not_mem_nil
  returns := fun r' m' hrun => by
    cases hrun
    exact ⟨h, rfl⟩
  fails := fun e m' hrun => by cases hrun

theorem bind {f : α → Logged β} (hx : Accounts F owed left Q x m)
    (hf : ∀ r m', Q r m' → Accounts F (left r) left' Q' (f r) m') :
    Accounts F owed left' Q' (x >>= f) m := by
  cases hxm : x.run m with
  | ok r m₁ =>
    obtain ⟨hr, hcommits⟩ := hx.returns r m₁ hxm
    have hf := hf r m₁ hr
    have hrun : (x >>= f).run m = (f r).run m₁ := by
      simp only [Bind.bind, EStateM.bind, hxm]
    have hevents : (x >>= f).events m = x.events m ++ (f r).events m₁ := by
      simp only [Bind.bind, afterwards, hxm]
    refine ⟨fun body a m' hmem hout => ?_, fun r' m' h => ?_, fun e m' h => ?_⟩
    · rw [hevents] at hmem
      rcases List.mem_append.mp hmem with hmem | hmem
      · exact hx.moments body a m' hmem hout
      · exact hf.moments body a m' hmem hout
    · rw [hrun] at h
      obtain ⟨hr', hcommits'⟩ := hf.returns r' m' h
      refine ⟨hr', ?_⟩
      rw [hevents, pushes_append]
      omega
    · rw [hrun] at h
      rw [hevents, pushes_append]
      rcases hf.fails e m' h with ⟨hpending, hcommits'⟩ | hbroken
      · exact .inl ⟨hpending, by omega⟩
      · exact .inr (hbroken.append _)
  | error e m₁ =>
    have hrun : (x >>= f).run m = .error e m₁ := by
      simp only [Bind.bind, EStateM.bind, hxm]
    have hevents : (x >>= f).events m = x.events m := by
      simp only [Bind.bind, afterwards, hxm, List.append_nil]
    refine ⟨fun body a m' hmem hout => ?_, fun r' m' h => ?_, fun e' m' h => ?_⟩
    · rw [hevents] at hmem
      exact hx.moments body a m' hmem hout
    · rw [hrun] at h
      cases h
    · rw [hrun] at h
      cases h
      rw [hevents]
      exact hx.fails e m₁ hxm

end Accounts

namespace Settles

variable {x : Logged α} {m : Machine}

theorem pure {r : α} (hm : m.Settled N F) : Settles N F (Pure.pure r) m :=
  Accounts.pure (fun _ => 0) hm

theorem bind {f : α → Logged β} (hx : Settles N F x m)
    (hf : ∀ r m', m'.Settled N F → Settles N F (f r) m') : Settles N F (x >>= f) m :=
  Accounts.bind hx hf

theorem discard (h : Settles N F x m) : Settles N F (Functor.discard x) m := by
  have hbind : Functor.discard x = x >>= fun _ => Pure.pure PUnit.unit := rfl
  rw [hbind]
  exact h.bind fun _ _ hm => .pure hm

/-- A computation that leaves an allocator alone. -/
theorem lift {V : α → Prop} {y : Run α} (hm : m.Settled N F)
    (hleads : Run.Leads (.guarded N F) True V y m) (hy : y.Mild) :
    Settles N F (liftM y) m := by
  have hpool := hy.pool m
  refine ⟨fun _ _ _ hmem => absurd hmem List.not_mem_nil, fun r m' h => ?_, fun e m' h => .inl ?_⟩
  all_goals
    have h : y m = _ := h
    simp only [Run.Leads, h] at hleads
    rw [h] at hpool
    have hpool : m'.pool = m.pool := hpool
    rw [hpool]
  · exact ⟨⟨hleads.1.natives.trans hm.natives, (hleads.2 trivial hm.sound).1,
      hpool ▸ hm.pending⟩, rfl⟩
  · exact ⟨hm.pending, rfl⟩

end Settles

end Logged

/-- Runs of methods settle. -/
def MethodLogger.Settles (N : List (MethodRef × Native)) (F : SaveCodes) (run : MethodLogger) :
    Prop :=
  ∀ owner method arguments m, m.Settled N F → (Discipline.guarded N F).code owner method →
    Run.NoTop arguments → Logged.Settles N F (run owner method arguments) m

namespace Logged

variable {run : MethodLogger} {m : Machine}

/-! ## Classes and calls -/

theorem get_events (f : Machine → Logged β) : (get >>= f).events m = (f m).events m := rfl

theorem get_bind {f : Machine → Logged β} (h : Settles N F (f m) m) :
    Settles N F (get >>= f) m :=
  ⟨h.moments, h.returns, h.fails⟩

/-- The static fields of a class get their zero values, and its initializer runs. -/
theorem initialize_settles (hrun : run.Settles N F) (hm : m.Settled N F) (c : Class)
    (hcode : ∀ method ∈ c.methods, (Discipline.guarded N F).code c method) : Settles N F (do
      modify fun m => { m with statics := Run.zeroStatics c m.statics }
      match c.methods.find? (·.name = .classInit) with
      | some method => discard (run c method [])
      | none => pure ()) m := by
  refine .bind (.lift hm (.modify (f := fun m => { m with statics := Run.zeroStatics c m.statics })
    (.of_heap_eq rfl rfl rfl rfl (fun _ h => h) rfl rfl)
    fun _ hm => hm.of_heap_eq rfl rfl (Run.zeroStatics_ne_top hm.statics) rfl rfl)
    (.modifyGet fun _ => rfl)) fun _ m₁ hm₁ => ?_
  cases hinit : c.methods.find? (·.name = .classInit) with
  | none => exact .pure hm₁
  | some method =>
    exact (hrun c method [] m₁ hm₁ (hcode method (List.mem_of_find?_eq_some hinit))
      (List.forall_mem_nil _)).discard

theorem prepare_settles (hrun : run.Settles N F) (hm : m.Settled N F) (levels : Nat)
    (name : ClassName) : Settles N F (prepare run levels name) m := by
  -- superclasses first; the class counts as initialized before its own code runs
  induction levels generalizing name m with
  | zero => exact .pure hm
  | succ levels ih =>
    refine get_bind ?_
    split
    · exact .pure hm
    · cases hc : m.class? name with
      | none => exact .pure hm
      | some c =>
        have hcode := hm.sound.code c (Run.class?_mem hc)
        refine .bind (.lift hm (.modify (f := fun m => { m with initialized := name :: m.initialized })
          (.of_heap_eq rfl rfl rfl rfl (fun _ h => List.mem_cons_of_mem _ h) rfl rfl)
          fun _ hm => hm.of_heap_eq rfl rfl hm.statics rfl rfl) (.modifyGet fun _ => rfl))
          fun _ m₁ hm₁ => ?_
        cases c.superclass with
        | none => exact initialize_settles hrun hm₁ c hcode
        | some super =>
          exact .bind (ih hm₁ super) fun _ _ hm₂ => initialize_settles hrun hm₂ c hcode

theorem ensureReady_settles (hrun : run.Settles N F) (hm : m.Settled N F) (name : ClassName) :
    Settles N F (ensureReady run name) m :=
  get_bind (prepare_settles hrun hm _ _)

theorem startClass_settles (hrun : run.Settles N F) (hm : m.Settled N F) (kind : CallKind)
    (method : MethodRef) (arguments : List Value) :
    Settles N F (startClass run kind method arguments) m := by
  have hreceiver : ∀ {m}, m.Settled N F → Settles N F (liftM (Run.receiver arguments)) m := fun hm =>
    .lift hm Run.nonNull_leads (.nonNull _)
  cases kind with
  | static => exact .bind (ensureReady_settles hrun hm _) fun _ _ hm => .pure hm
  | special => exact .bind (hreceiver hm) fun _ _ hm => .pure hm
  | virtual | interface =>
    refine .bind (hreceiver hm) fun r _ hm => .bind (.lift hm (V := fun _ => True) ?_ (.object r))
      fun o _ hm => ?_
    · rw [← bind_pure (Run.object r)]
      exact .object_bind fun _ _ => .pure fun _ => trivial
    · cases o <;> exact .pure hm

/-- Natives that do not save a frame. -/
theorem native_settles {found : Native} (hplain : found.counted = false) (hm : m.Settled N F)
    {arguments : List Value} (hargs : Run.NoTop arguments) :
    Settles N F (native found arguments) m := by
  have hleads : Run.Leads (.guarded N F) True Run.Definite (found.run arguments) m :=
    Run.native_leads found (fun _ => hargs) fun _ _ _ _ _ _ _ _ _ _ _ _ => trivial
  have hpushes : pushes ((native found arguments).events m) = 0 := by
    have hpush : found ≠ .push := fun he => by
      rw [he] at hplain
      cases hplain
    simp only [native]
    split <;> simp [pushes, Event.isPush, hpush]
  have hpool : (Run.left (found.run arguments m)).pool.pending = 0 ∧
      (Run.left (found.run arguments m)).pool.commits = m.pool.commits := by
    by_cases hroll : found = .rollback
    · subst hroll
      exact ⟨rfl, rfl⟩
    · have hquiet : found.ofAllocator = false := by
        cases found <;> first | rfl | exact absurd rfl hroll | cases hplain
      rw [(Native.run_mild hquiet arguments).pool m]
      exact ⟨hm.pending, rfl⟩
  refine ⟨fun _ _ _ hmem => ?_, fun r m' h => ?_, fun e m' h => .inl ?_⟩
  · simp only [native] at hmem
    split at hmem
    · cases List.mem_singleton.mp hmem
    · cases hmem
  all_goals
    have h : found.run arguments m = _ := h
    simp only [Run.Leads, h] at hleads
    rw [h] at hpool
    rw [hpushes]
  · exact ⟨⟨hleads.1.natives.trans hm.natives, (hleads.2 trivial hm.sound).1, hpool.1⟩, hpool.2⟩
  · exact hpool

theorem libraryConstructor_mild (arguments : List Value) :
    (Run.libraryConstructor arguments).Mild := by
  unfold Run.libraryConstructor
  split
  · refine .bind (.object _) fun o => ?_
    cases o with
    | «instance» owner fields => exact .setObject _ _
    | _ => exact .pure _
  · exact .pure _

theorem call_native_events {kind : CallKind} {ref : MethodRef} {arguments : List Value}
    {found : Native} (h : m.natives.lookup ref = some found) :
    (call run kind ref arguments).events m = (native found arguments).events m := by
  rw [call, get_events]
  simp only [h]

/-- **Calls** that do not save a frame. -/
theorem call_settles (hrun : run.Settles N F) (hm : m.Settled N F) (kind : CallKind) (ref : MethodRef)
    {arguments : List Value} (hargs : Run.NoTop arguments)
    (hplain : ∀ found, N.lookup ref = some found → found.counted = false) :
    Settles N F (call run kind ref arguments) m := by
  refine get_bind ?_
  cases hfound : m.natives.lookup ref with
  | some found => exact native_settles (hplain found (hm.natives ▸ hfound)) hm hargs
  | none =>
    refine .bind (startClass_settles hrun hm kind ref arguments) fun start m' hm' => get_bind ?_
    simp only
    split
    · rename_i c method himpl
      obtain ⟨hc, hmethod⟩ := Run.implementation?_mem himpl
      exact hrun c method arguments m' hm' (hm'.sound.code c hc method hmethod) hargs
    · split
      · exact .bind (.lift hm' (Run.libraryConstructor_leads arguments)
          (libraryConstructor_mild arguments)) fun _ _ hm => .pure hm
      · exact .lift (V := fun _ => True) hm' .fail (.fail nofun)

/-- What an instruction asks of others that does not save a frame. -/
theorem ask_settles (hrun : run.Settles N F) (hm : m.Settled N F) {a : Activation} (ha : a.Sound)
    {i : Instruction} (hplain : ∀ found, i.native? N = some found → found.counted = false) :
    Settles N F (a.ask (call run) (ensureReady run) i) m := by
  cases i with
  | invoke kind ref =>
    simp only [Activation.ask]
    split
    · exact call_settles hrun hm kind ref
        (fun v hv => ha v (List.mem_of_mem_take (List.mem_reverse.mp hv))) hplain
    · exact .pure hm
  | getStatic _ | putStatic _ | new _ =>
    exact .bind (ensureReady_settles hrun hm _) fun _ _ hm => .pure hm
  | _ => exact .pure hm

end Logged

/-! ## Bodies -/

namespace Body

/-- The frames that an activation owes: one between a push and its commit. -/
def owed (N : List (MethodRef × Native)) (body : Body) (a : Activation) : Nat :=
  if (body.instructions[a.index]?.bind (·.native? N)) = some .commit then 1 else 0

/-- What holds of an activation that is under way, and of the machine. -/
structure Underway (N : List (MethodRef × Native)) (F : SaveCodes) (body : Body) (a : Activation)
    (m : Machine) : Prop where
  /-- the same methods are native -/
  natives : m.natives = N
  /-- the machine is sound -/
  sound : m.Sound (.guarded N F)
  /-- the activation is sound -/
  activation : a.Sound
  /-- what is on the stack is known -/
  outlined : body.Outlined N F a m
  /-- outside of a save sequence nothing is pending -/
  pending : ¬ InFrame F body.instructions.toList a.index → m.pool.pending = 0

/-- What a step owes. -/
def Next.owed (N : List (MethodRef × Native)) (body : Body) : Next → Nat
  | .continue a => body.owed N a
  | .return _ => 0

/-- The activation goes on, or the machine is settled. -/
def Next.Underway (N : List (MethodRef × Native)) (F : SaveCodes) (body : Body) :
    Next → Machine → Prop
  | .continue a, m => body.Underway N F a m
  | .return _, m => m.Settled N F

variable {run : MethodLogger} {c : Code} {body : Body} {a b : Activation} {m m' : Machine}
  {i : Instruction}

theorem owed_eq_zero (h : ∀ i, body.instructions[a.index]? = some i → i.native? N ≠ some .commit) :
    body.owed N a = 0 := by
  refine if_neg fun hcommit => ?_
  obtain ⟨i, hi, hcommit⟩ := Option.bind_eq_some_iff.mp hcommit
  exact h i hi hcommit

theorem owed_eq_one (hi : body.instructions[a.index]? = some i)
    (hcommit : i.native? N = some .commit) : body.owed N a = 1 := by
  rw [owed, hi, Option.bind_some, if_pos hcommit]

/-- Outside of code that saves a frame none is owed. -/
theorem owed_outside (hguarded : Guarded N F body.instructions.toList)
    (hout : ¬ InFrame F body.instructions.toList a.index) : body.owed N a = 0 :=
  owed_eq_zero fun i hi hcommit =>
    hout (hguarded a.index i .commit (by rw [Array.getElem?_toList, hi]) hcommit rfl)

/-- After anything but a push no frame is owed. -/
theorem owed_next (hF : F.Sound N) (hguarded : Guarded N F body.instructions.toList)
    (hi : body.instructions[a.index]? = some i) (hpush : i.native? N ≠ some .push)
    (hnext : b.index = a.index + 1) : body.owed N b = 0 := by
  refine owed_eq_zero fun j hj hcommit => ?_
  rw [← Array.getElem?_toList] at hi hj
  obtain ⟨k, push, hk, hget, hpushed⟩ := hguarded.pushed hF hj hcommit
  obtain rfl : a.index = k := by omega
  cases hi.symm.trans hget
  exact hpush hpushed

namespace Underway

/-- What a step leads to. -/
theorem leads (hrun : run.runner.Steady (.guarded N F) N) (h : body.Underway N F a m) :
    Run.Leads (.guarded N F) True Next.Sound (body.advance (Run.callees run.runner) a) m := by
  cases hi : body.instructions[a.index]? with
  | none => exact Body.advance_ranOff hi
  | some i =>
    exact (Body.advance_leads hi (Step.execute_steady (Run.callees_steady hrun) i
      (fun _ => .inr fun _ => trivial) a m h.natives)).mono
      (fun _ => ⟨trivial, h.activation⟩) fun _ _ h => h

/-- A step after which nothing is pending, unless the activation is inside of code for a frame. -/
theorem next (hF : F.Sound N) (hbody : ofCode c = .ok body)
    (hrun : run.runner.Steady (.guarded N F) N) (h : body.Underway N F a m)
    {next : Next} (hadvance : body.advance (Run.callees run.runner) a m = .ok next m')
    (hpending : (∀ b, next = .continue b → ¬ InFrame F body.instructions.toList b.index) →
      m'.pool.pending = 0) : next.Underway N F body m' := by
  have hleads := h.leads hrun
  simp only [Run.Leads, hadvance] at hleads
  obtain ⟨hlater, hsound⟩ := hleads
  have hN : m'.natives = N := hlater.natives.trans h.natives
  obtain ⟨hm', hnext⟩ := hsound trivial h.sound
  cases next with
  | «return» v => exact ⟨hN, hm', hpending fun _ hnext => by cases hnext⟩
  | «continue» b =>
    obtain rfl := h.natives
    have hliterate : m.Literate := fun s r hs => (h.sound.interned r s).mpr hs
    refine ⟨hN, hm', hnext, h.outlined.advance hF hbody hrun hliterate hadvance, fun hout => ?_⟩
    refine hpending fun b' hb' => ?_
    cases hb'
    exact hout

end Underway

/-- What a call of a native for a frame logs. -/
theorem ask_saves (hN : m.natives = N) (hsaves : i.saves N = true) {r : Progress × Activation}
    (hexec : Step.execute (Run.callees run.runner) i a m = .ok r m') :
    (a.ask (Logged.call run) (Logged.ensureReady run) i).events m =
      ((i.native? N).map Event.done).toList := by
  cases i with
  | invoke kind ref =>
    obtain ⟨found, hfound, -⟩ := (Option.any_eq_true ..).mp hsaves
    have hnative : m.natives.lookup ref = some found := hN ▸ hfound
    by_cases henough : ref.argumentCount kind ≤ a.stack.length
    · rw [Step.execute_invoke_eq rfl henough] at hexec
      simp only [Run.callees, Step.call_native hnative, ← MethodRef.argumentCount.eq_1] at hexec
      have hasked : (Instruction.invoke kind ref).native? N = some found := hfound
      rw [Activation.ask, if_pos henough, Logged.call_native_events hnative, hasked]
      split at hexec
      · rename_i hrun
        simp only [Logged.native, hrun, Option.map_some, Option.toList_some]
      · cases hexec
    · rw [Step.execute_invoke_missing rfl (Nat.not_le.mp henough)] at hexec
      cases hexec
  | load _ _ | pushNull | pushInt _ | arrayStore _ => rfl
  | pushConstant c =>
    cases c with
    | string s => rfl
    | _ => cases hsaves
  | stack op =>
    cases op with
    | dup => rfl
    | _ => cases hsaves
  | _ => cases hsaves

/-- What an instruction of the code for a frame does to the counts of an allocator: a push is owed
until it is committed. -/
theorem owed_saves (hF : F.Sound N) (hguarded : Guarded N F body.instructions.toList)
    (hin : InFrame F body.instructions.toList a.index) (hi : body.instructions[a.index]? = some i)
    (hnext : b.index = a.index + 1) (p : FramePool) :
    (i.counts N p).commits + body.owed N b =
      p.commits + body.owed N a + pushes ((i.native? N).map Event.done).toList := by
  have hlist : body.instructions.toList[a.index]? = some i := by rw [Array.getElem?_toList, hi]
  have hother : i.native? N ≠ some .push → i.native? N ≠ some .commit →
      body.owed N a = 0 ∧ body.owed N b = 0 := by
    refine fun hpush hcommit => ⟨owed_eq_zero fun j hj => ?_, owed_next hF hguarded hi hpush hnext⟩
    cases hi.symm.trans hj
    exact hcommit
  cases hnative : i.native? N with
  | none =>
    obtain ⟨ha, hb⟩ := hother (by simp [hnative]) (by simp [hnative])
    rw [Instruction.counts_of_no_native hnative, ha, hb]
    rfl
  | some found =>
    have hcounts : i.counts N p = found.counts p := by
      rw [Instruction.counts, hnative]
      rfl
    rw [hcounts]
    cases found with
    | push =>
      obtain ⟨commit, hget, hcommit⟩ := hin.commits hF hlist hnative
      rw [Array.getElem?_toList, ← hnext] at hget
      have ha : body.owed N a = 0 := owed_eq_zero fun j hj => by
        cases hi.symm.trans hj
        simp [hnative]
      rw [ha, owed_eq_one hget hcommit]
      rfl
    | commit =>
      rw [owed_eq_one hi hnative, owed_next hF hguarded hi (by simp [hnative]) hnext]
      rfl
    | _ =>
      obtain ⟨ha, hb⟩ := hother (by simp [hnative]) (by simp [hnative])
      rw [ha, hb]
      rfl

/-- What a step logs. -/
theorem advance_events (run : MethodLogger) (m : Machine) (hi : body.instructions[a.index]? = some i) :
    (Logged.advance run body a).events m =
      .step body a m :: (a.ask (Logged.call run) (Logged.ensureReady run) i).events m := by
  simp only [Logged.advance, hi]

/-- **A step inside of code that saves a frame.** -/
theorem advance_saves (hF : F.Sound N) (hbody : ofCode c = .ok body)
    (hguarded : Guarded N F body.instructions.toList)
    (hrun : run.runner.Steady (.guarded N F) N) (h : body.Underway N F a m)
    (hin : InFrame F body.instructions.toList a.index) :
    Logged.Accounts F (body.owed N a) (Next.owed N body) (Next.Underway N F body)
      (Logged.advance run body a) m := by
  have hlt : a.index < body.instructions.toList.length := by
    obtain ⟨slot, lead, frame, front, rest, done, -, hplace, hindex, hdone⟩ := hin
    rw [hplace, hindex]
    simp only [List.length_append]
    omega
  obtain ⟨i, hi⟩ : ∃ i, body.instructions.toList[a.index]? = some i :=
    ⟨_, List.getElem?_eq_getElem hlt⟩
  have hi' : body.instructions[a.index]? = some i := by rwa [Array.getElem?_toList] at hi
  have hsaves := hin.saves hF hi
  have hliterate : m.Literate := fun s r hs => (h.sound.interned r s).mpr hs
  obtain ⟨slot, o, o', hfits, hafter⟩ : ∃ (slot : Nat) (o o' : Outline), o.Fits slot a m ∧
      o.after? N slot i = some o' := by
    obtain ⟨slot, lead, frame, front, rest, done, hcode, hplace, hindex, hget⟩ := hin.getElem? hi
    have hget' : (lead ++ frame)[lead.length + done]? = some i := by
      rwa [List.getElem?_append_right (Nat.le_add_right ..), Nat.add_sub_cancel_left]
    obtain ⟨o, o', hfits, hafter, -⟩ := h.outlined.before hF hcode hplace hindex hget'
    exact ⟨slot, o, o', hfits, hafter⟩
  have hmoments : ∀ es : List Event, (∀ body' a' m', Event.step body' a' m' ∉ es) →
      ∀ body' a' m', .step body' a' m' ∈ Event.step body a m :: es →
      ¬ InFrame F body'.instructions.toList a'.index → m'.pool.pending = 0 := by
    intro es hes body' a' m' hmem hout
    rcases List.mem_cons.mp hmem with heq | hmem
    · cases heq
      exact absurd hin hout
    · exact absurd hmem (hes body' a' m')
  -- either the step goes on along the sequence, or a variable holds nothing and the run is broken
  -- off
  rcases Step.execute_saves run.runner h.natives hliterate hafter hfits hsaves with
    ⟨b, m', hexec, -, hpool⟩ | ⟨kind, other, rfl, hempty, hexec⟩
  · have hsteady := Step.execute_steady (P := False) (Run.callees_steady hrun) i
      (fun hp => hp.elim) a m h.natives
    rw [Step.SteadyAt, hexec] at hsteady
    have hadvance := advance_next hi' hexec
    rw [hsteady.1] at hadvance
    have hevents := advance_events run m hi'
    rw [ask_saves h.natives hsaves hexec] at hevents
    refine ⟨fun body' a' m' => ?_, fun next m'' hok => ?_, fun e m'' herror => ?_⟩
    · rw [hevents]
      refine hmoments _ (fun body' a' m' hmem => ?_) body' a' m'
      obtain ⟨found, -, heq⟩ := Option.map_eq_some_iff.mp (Option.mem_toList.mp hmem)
      cases heq
    · cases hadvance.symm.trans hok
      refine ⟨h.next hF hbody hrun hadvance fun hout => ?_, ?_⟩
      · rw [hpool, Instruction.counts, hin.committed hF hi (hout _ rfl)]
        rfl
      · rw [hevents, pushes_step, hpool]
        exact owed_saves hF hguarded hin hi' rfl m.pool
    · cases hadvance.symm.trans herror
  · have hadvance : body.advance (Run.callees run.runner) a m =
        .error (.failure (.badCode a.method a.index (.uninitializedLocal other))) m := by
      rw [advance_eq hi', hexec]
      rfl
    have hevents : (Logged.advance run body a).events m = [.step body a m] := advance_events run m hi'
    refine ⟨fun body' a' m' => ?_, fun next m'' hok => ?_, fun e' m'' herror => .inr ?_⟩
    · rw [hevents]
      exact hmoments [] (fun _ _ _ => List.not_mem_nil) body' a' m'
    · cases hadvance.symm.trans hok
    · cases hadvance.symm.trans herror
      exact .empty (by rw [hevents]; rfl) hin hi' hempty

theorem afterExecute_pool (body : Body) (a : Activation)
    (x : EStateM.Result Abrupt Machine (Progress × Activation)) :
    (Run.left (body.afterExecute a x)).pool = (Run.left x).pool := by
  cases x with
  | ok p m =>
    obtain ⟨progress, b⟩ := p
    cases progress with
    | jump l =>
      simp only [afterExecute]
      split <;> rfl
    | _ => rfl
  | error e m =>
    cases e with
    | failure f => rfl
    | exception r =>
      have hpool := (body.handle_mild a r).pool m
      simp only [afterExecute]
      split <;> rename_i hhandle <;> rw [hhandle] at hpool <;> exact hpool

/-- A step outside of such code leaves behind what others did that it asked, or it ends as they did. -/
theorem advance_pool (hrun : run.Settles N F) (hm : m.Settled N F) (ha : a.Sound)
    (hi : body.instructions[a.index]? = some i)
    (hplain : ∀ found, i.native? N = some found → found.counted = false) {es : List Event}
    (hes : (a.ask (Logged.call run) (Logged.ensureReady run) i).events m = es) :
    (let m' := Run.left (body.advance (Run.callees run.runner) a m)
     m'.pool.pending = 0 ∧ m'.pool.commits = m.pool.commits + pushes es) ∨
    ∃ e m', body.advance (Run.callees run.runner) a m = .error e m' ∧ BrokenOff F e es := by
  have hasks := Logged.ask_settles hrun hm ha hplain
  have hfollows := Step.execute_follows (Run.callees run.runner) i a m
  rw [advance_eq hi]
  simp only [afterExecute_pool]
  subst hes
  cases hanswer : (Run.callees run.runner).answer a i m with
  | ok v m₁ =>
    obtain ⟨hm₁, hcommits⟩ := hasks.returns v m₁ (by rw [Logged.ask_run, hanswer])
    rw [hfollows.quiet v m₁ hanswer]
    exact .inl ⟨hm₁.pending, hcommits⟩
  | error e m₁ =>
    rw [hfollows.ends e m₁ hanswer]
    rcases hasks.fails e m₁ (by rw [Logged.ask_run, hanswer]) with hsettled | hbroken
    · exact .inl hsettled
    · obtain ⟨f, rfl⟩ := hbroken.failed
      exact .inr ⟨.failure f, m₁, rfl, hbroken⟩

/-- **A step outside of code that saves a frame.** -/
theorem advance_plain (hF : F.Sound N) (hbody : ofCode c = .ok body)
    (hguarded : Guarded N F body.instructions.toList)
    (hsteady : run.runner.Steady (.guarded N F) N) (hrun : run.Settles N F)
    (h : body.Underway N F a m) (hout : ¬ InFrame F body.instructions.toList a.index) :
    Logged.Accounts F (body.owed N a) (Next.owed N body) (Next.Underway N F body)
      (Logged.advance run body a) m := by
  have hm : m.Settled N F := ⟨h.natives, h.sound, h.pending hout⟩
  -- Nothing is owed here, before the step and after it. So all that counts is what others do that
  -- the step asks.
  cases hi : body.instructions[a.index]? with
  | none =>
    have hadvance : body.advance (Run.callees run.runner) a m =
        .error (.failure (.badCode a.method a.index .ranOff)) m := by
      simp only [Body.advance, hi]
      rfl
    have hevents : (Logged.advance run body a).events m = [.step body a m] := by
      simp only [Logged.advance, hi]
    refine ⟨fun body' a' m' hmem _ => ?_, fun next m' hok => ?_, fun e m' herror => .inl ?_⟩
    · rw [hevents] at hmem
      cases List.mem_singleton.mp hmem
      exact hm.pending
    · cases hadvance.symm.trans hok
    · cases hadvance.symm.trans herror
      rw [hevents, pushes_step, owed_outside hguarded hout]
      exact ⟨hm.pending, rfl⟩
  | some i =>
    have hplain : ∀ found, i.native? N = some found → found.counted = false := by
      intro found hnative
      by_contra hcounted
      rw [Bool.not_eq_false] at hcounted
      exact hout (hguarded a.index i found (by rw [Array.getElem?_toList, hi]) hnative hcounted)
    have howed := owed_outside hguarded hout
    have hevents := advance_events run m hi
    have hasks := Logged.ask_settles hrun hm h.activation hplain
    generalize hes : (a.ask (Logged.call run) (Logged.ensureReady run) i).events m = es at hevents
    have hpool := advance_pool hrun hm h.activation hi hplain hes
    have hmoments : ∀ body' a' m', .step body' a' m' ∈ (Logged.advance run body a).events m →
        ¬ InFrame F body'.instructions.toList a'.index → m'.pool.pending = 0 := by
      intro body' a' m' hmem hout'
      rw [hevents] at hmem
      rcases List.mem_cons.mp hmem with heq | hmem
      · cases heq
        exact hm.pending
      · exact hasks.moments body' a' m' (hes ▸ hmem) hout'
    refine ⟨hmoments, fun next m' hok => ?_, fun e m' herror => ?_⟩
    · have hok : body.advance (Run.callees run.runner) a m = .ok next m' := hok
      rw [hok] at hpool
      obtain ⟨hpending, hcommits⟩ := hpool.resolve_right (by rintro ⟨_, _, herror, -⟩; cases herror)
      have hnext : next.owed N body = 0 := by
        cases next with
        | «return» v => rfl
        | «continue» b =>
          obtain rfl := h.natives
          rcases advance_next_or_label hbody hsteady hok with ⟨j, b₀, hj, -, -, rfl⟩ | ⟨l, hlabel⟩
          · refine owed_next hF hguarded hi (fun hpush => ?_) rfl
            cases hplain _ hpush
          · refine owed_eq_zero fun j hj hcommit => ?_
            cases hlabel.symm.trans hj
            cases hcommit
      refine ⟨h.next hF hbody hsteady hok fun _ => hpending, ?_⟩
      rw [hevents, pushes_step, howed, hnext]
      exact hcommits
    · have herror : body.advance (Run.callees run.runner) a m = .error e m' := herror
      rw [herror] at hpool
      rw [hevents, pushes_step, howed]
      refine hpool.imp id ?_
      rintro ⟨e', m'', heq, hbroken⟩
      cases heq
      exact hbroken.append [.step body a m]

end Body

namespace Logged

variable {run : MethodLogger} {c : Code} {body : Body} {m : Machine}

/-- **A run of a body**, from an activation that is under way. -/
theorem runFor_accounts (hF : F.Sound N) (hbody : Body.ofCode c = .ok body)
    (hguarded : Guarded N F body.instructions.toList)
    (hsteady : run.runner.Steady (.guarded N F) N) (hrun : run.Settles N F) (limit steps : Nat)
    {a : Activation} (h : body.Underway N F a m) :
    Accounts F (body.owed N a) (fun _ => 0) (fun _ m' => m'.Settled N F)
      (runFor run body limit steps a) m := by
  -- By induction on the steps. Inside of a save sequence what is owed grows and is paid at its end;
  -- everywhere else nothing is owed.
  induction steps generalizing a m with
  | zero =>
    refine ⟨fun body' a' m' hmem hout => ?_, fun r m' hok => (nomatch hok), fun e m' herror => ?_⟩
    · cases List.mem_singleton.mp hmem
      exact h.pending hout
    · cases herror
      by_cases hin : InFrame F body.instructions.toList a.index
      · exact .inr (.steps rfl hin)
      · rw [Body.owed_outside hguarded hin]
        exact .inl ⟨h.pending hin, rfl⟩
  | succ steps ih =>
    have hadvance : Accounts F (body.owed N a) (Body.Next.owed N body)
        (Body.Next.Underway N F body) (advance run body a) m := by
      by_cases hin : InFrame F body.instructions.toList a.index
      · exact Body.advance_saves hF hbody hguarded hsteady h hin
      · exact Body.advance_plain hF hbody hguarded hsteady hrun h hin
    refine .bind hadvance fun next m' hnext => ?_
    cases next with
    | «continue» b => exact ih hnext
    | «return» v => exact Accounts.pure (fun _ => 0) hnext

/-- **Methods**, with calls at any depth. -/
theorem runMethod_settles (hF : F.Sound N) (limit depth : Nat) :
    (runMethod limit depth).Settles N F := by
  have hkept : (Discipline.guarded N F).Kept N := Discipline.kept_of_keys fun _ => trivial
  induction depth with
  | zero =>
    intro owner method arguments m hm _ _
    exact get_bind (.lift (V := fun _ => True) hm .fail (.fail not_false))
  | succ depth ih =>
    intro owner method arguments m hm hcode _
    have hfail : ∀ {e : RunError}, ¬ e.IsFault →
        Settles N F (liftM (Run.fail e : Run (Option Value))) m := fun he =>
      .lift (V := fun _ => True) hm .fail (.fail he)
    simp only [runMethod]
    cases hc : method.code with
    | none => exact hfail not_false
    | some c =>
      simp only
      cases hbody : Body.ofCode c with
      | error e => exact hfail not_false
      | ok body =>
        have hguarded : Guarded N F body.instructions.toList := by
          rw [(Body.ofCode_inv hbody).1]
          exact hcode c hc
        have hsteady : (runMethod limit depth).runner.Steady (.guarded N F) N := by
          rw [runMethod_run]
          exact runMethod_steady hkept limit depth
        generalize hstart : (⟨s!"{owner.name.text}.{method.signature}",
          argumentLocals arguments, [], 0⟩ : Activation) = a
        have hindex : a.index = 0 := by rw [← hstart]
        have hstack : a.stack = [] := by rw [← hstart]
        -- code that saves a frame does not begin with the commit
        have howed : body.owed N a = 0 := Body.owed_eq_zero fun i hi hcommit => by
          rw [← Array.getElem?_toList] at hi
          obtain ⟨j, push, hj, -⟩ := hguarded.pushed hF hi hcommit
          omega
        have hunderway : body.Underway N F a m := by
          refine ⟨hm.natives, hm.sound, ?_, fun _ _ _ _ _ _ _ _ _ _ _ => ?_, fun _ => hm.pending⟩
          · rw [Activation.Sound, hstack]
            exact List.forall_mem_nil _
          · omega
        have hrun := runFor_accounts hF hbody hguarded hsteady ih limit limit hunderway
        rwa [howed] at hrun

theorem invoke_settles (hF : F.Sound N) (hm : m.Settled N F) (kind : CallKind) {ref : MethodRef}
    {arguments : List Value} (hargs : Run.NoTop arguments)
    (hplain : ∀ found, N.lookup ref = some found → found.counted = false) :
    Settles N F (invoke kind ref arguments) m :=
  get_bind (get_bind (call_settles (runMethod_settles hF _ _) hm kind ref hargs hplain))

theorem construct_settles (hF : F.Sound N) (hm : m.Settled N F) (owner : ClassName)
    (hplain : ∀ found, N.lookup ⟨owner, .init, ⟨[], none⟩⟩ = some found → found.counted = false) :
    Settles N F (construct owner) m := by
  refine get_bind (get_bind (.bind (ensureReady_settles (runMethod_settles hF _ _) hm owner) fun _ _ hm =>
    .bind (.lift hm Run.newInstance_leads (.newInstance owner)) fun r _ hm =>
    .bind (Settles.discard (invoke_settles hF hm .special (List.forall_mem_singleton.mpr nofun)
      hplain)) fun _ _ hm => .pure hm))

end Logged

end Resumption
