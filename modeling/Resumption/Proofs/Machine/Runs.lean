import Resumption.Proofs.Machine.Steady
import Resumption.Proofs.Machine.Straight

/-!
# Runs keep machines sound

A method, its calls and the initialization of classes lead from a sound machine to a sound one, at
any depth (`runMethod_steady`). What a discipline asks of loaded code is all that is needed of a
body: `Discipline.Kept` says that a body is steady if its calls are answered steadily, and for the
discipline that asks for nothing (`Discipline.none`) every body is.
-/

namespace Resumption

variable {D : Discipline} {N : List (MethodRef × Native)} {P : Prop} {α β : Type}

/-- A runner of methods that is steady on the methods that the discipline admits, on machines with
the natives `N`. -/
def MethodRunner.Steady (D : Discipline) (N : List (MethodRef × Native)) (run : MethodRunner) :
    Prop :=
  ∀ (P : Prop) owner method arguments m, m.natives = N → (P → D.code owner method) →
    (P → Run.NoTop arguments) → Run.Leads D P Run.Definite (run owner method arguments) m

namespace Run

variable {V : α → Prop} {W : β → Prop} {m : Machine} {run : MethodRunner}

theorem discard_leads {x : Run α} (h : Leads D P V x m) :
    Leads D P (fun _ => True) (Functor.discard x) m := by
  rw [discard_eq_bind]
  exact .bind h fun _ _ _ => .pure fun _ => trivial

theorem zeroStatics_ne_top {c : Class} {statics : List ((ClassName × MemberName) × Value)}
    (h : ∀ e ∈ statics, e.2 ≠ .top) : ∀ e ∈ zeroStatics c statics, e.2 ≠ .top := by
  unfold zeroStatics
  generalize c.fields.filter (·.isStatic) = fields
  induction fields generalizing statics with
  | nil => exact h
  | cons f fields ih =>
    simp only [List.foldl_cons]
    refine ih fun e he => ?_
    split at he
    · exact h e he
    · rcases mem_setStatic he with rfl | he
      · exact zero_ne_top _
      · exact h e he

theorem class?_mem {name : ClassName} {c : Class} (h : m.class? name = some c) :
    c ∈ m.classes := List.mem_of_find?_eq_some h

/-- The static fields of a class get their zero values, and its initializer runs. -/
theorem initialize_leads (hrun : run.Steady D N) (hm : m.natives = N) (c : Class)
    (hcode : P → ∀ method ∈ c.methods, D.code c method) :
    Leads D P (fun _ => True) (do
      modify fun m => { m with statics := zeroStatics c m.statics }
      match c.methods.find? (·.name = .classInit) with
      | some method => discard (run c method [])
      | none => pure ()) m := by
  refine .bind (.modify (f := fun m => { m with statics := zeroStatics c m.statics })
    (.of_heap_eq rfl rfl rfl rfl (fun _ h => h) rfl rfl)
    fun _ hm => hm.of_heap_eq rfl rfl (zeroStatics_ne_top hm.statics) rfl rfl)
    fun _ m₁ hlater₁ => ?_
  cases hinit : c.methods.find? (·.name = .classInit) with
  | none => exact .pure fun _ => trivial
  | some method =>
    exact discard_leads (hrun _ c method [] m₁ (hlater₁.natives.trans hm)
      (fun h => hcode h.1 method (List.mem_of_find?_eq_some hinit)) fun _ => List.forall_mem_nil _)

/-- Initialization runs class initializers of loaded classes and zeroes static fields. -/
theorem prepare_leads (hrun : run.Steady D N) (hm : m.natives = N) (levels : Nat)
    (name : ClassName) : Leads D P (fun _ => True) (prepare run levels name) m := by
  induction levels generalizing name m P with
  | zero => exact .pure fun _ => trivial
  | succ levels ih =>
    simp only [prepare]
    refine .get_bind ?_
    split
    · exact .pure fun _ => trivial
    · cases hc : m.class? name with
      | none => exact .pure fun _ => trivial
      | some c =>
        refine .assume (fun _ hm => hm.code c (class?_mem hc)) ?_
        refine .bind (.modify (f := fun m => { m with initialized := name :: m.initialized })
          (.of_heap_eq rfl rfl rfl rfl (fun _ h => List.mem_cons_of_mem _ h) rfl rfl)
          fun _ hm => hm.of_heap_eq rfl rfl hm.statics rfl rfl) fun _ m₁ hlater₁ => ?_
        have hm₁ : m₁.natives = N := hlater₁.natives.trans hm
        cases c.superclass with
        | none => exact initialize_leads hrun hm₁ c fun h => h.1.2
        | some super =>
          exact .bind (ih hm₁ super) fun _ m₂ hlater₂ =>
            initialize_leads hrun (hlater₂.natives.trans hm₁) c fun h => h.1.1.2

theorem ensureReady_leads (hrun : run.Steady D N) (hm : m.natives = N) (name : ClassName) :
    Leads D P (fun _ => True) (ensureReady run name) m :=
  .get_bind (prepare_leads hrun hm _ _)

/-- An implementation belongs to a loaded class. -/
theorem implementation?_mem {classes : List Class} {name : MemberName}
    {descriptor : MethodDescriptor} {levels : Nat} {start : ClassName} {c : Class} {method : Method}
    (h : implementation? classes name descriptor levels start = some (c, method)) :
    c ∈ classes ∧ method ∈ c.methods := by
  -- up along the superclasses
  induction levels generalizing start with
  | zero => cases h
  | succ levels ih =>
    simp only [implementation?] at h
    split at h
    · cases h
    · rename_i c' hc'
      split at h
      · rename_i found hfound
        cases h
        exact ⟨List.mem_of_find?_eq_some hc', List.mem_of_find?_eq_some hfound⟩
      · cases hs : c'.superclass with
        | none =>
          rw [hs] at h
          cases h
        | some super =>
          rw [hs] at h
          exact ih h

theorem libraryConstructor_leads (arguments : List Value) :
    Leads D P (fun _ => True) (libraryConstructor arguments) m := by
  unfold libraryConstructor
  split
  · refine .object_bind fun o ho => ?_
    cases o with
    | «instance» owner fields =>
      refine .setObject (fun o' ho' => ?_) fun _ o' ho' hs => ?_
      · rw [ho] at ho'
        cases ho'
        exact .of_evolves rfl nofun
      · rw [ho] at ho'
        cases ho'
        exact hs.setField _ nofun
    | _ => exact .pure fun _ => trivial
  · exact .pure fun _ => trivial

theorem startClass_leads (hrun : run.Steady D N) (hm : m.natives = N) (kind : CallKind) (method : MethodRef)
    (arguments : List Value) : Leads D P (fun _ => True) (startClass run kind method arguments) m := by
  cases kind with
  | static => exact .bind (ensureReady_leads hrun hm _) fun _ _ _ => .pure fun _ => trivial
  | special => exact .bind nonNull_leads fun _ _ _ => .pure fun _ => trivial
  | virtual | interface =>
    refine .bind nonNull_leads fun r m' _ => .object_bind fun o _ => ?_
    cases o <;> exact .pure fun _ => trivial

theorem call_leads (hrun : run.Steady D N) (hm : m.natives = N) (kind : CallKind) (ref : MethodRef)
    {arguments : List Value} (hargs : P → NoTop arguments)
    (hgood : P → ref = Interface.MethodState.create → MakesGood D.key arguments m) :
    Leads D P Definite (call run kind ref arguments) m := by
  refine .get_bind ?_
  cases hnative : m.natives.lookup ref with
  | some native =>
    refine .assume (fun _ hm => hm.creates) (native_leads native (fun h => hargs h.1) fun h he => ?_)
    exact hgood h.1 (h.2 ref (he ▸ hnative))
  | none =>
    refine .bind (startClass_leads hrun hm kind ref arguments) fun start m' hlater => .get_bind ?_
    simp only
    split
    · rename_i c method himpl
      obtain ⟨hc, hmethod⟩ := implementation?_mem himpl
      refine .assume (F := D.code c method) (fun _ hm => hm.code c hc method hmethod) ?_
      exact hrun _ c method arguments m' (hlater.natives.trans hm) (fun h => h.2)
        (fun h => hargs h.1.1)
    · split
      · exact .bind (libraryConstructor_leads arguments) fun _ _ _ => .pure fun _ => Definite.none
      · exact .fail

theorem callees_steady (hrun : run.Steady D N) : Step.CalleesSteady D N (callees run) where
  call := fun _ kind ref _ _ hm hargs hgood => call_leads hrun hm kind ref hargs hgood
  prepare := fun _ name _ hm => ensureReady_leads hrun hm name

end Run

/-! ## Bodies -/

namespace Body

variable {callees : Callees} {body : Body} {m : Machine}

theorem catches_leads (caught : Option ClassName) (thrown : RefType) :
    Run.Leads D P (fun _ => True) (catches caught thrown) m := by
  cases caught with
  | none => exact .pure fun _ => trivial
  | some super =>
    cases thrown with
    | object sub => exact .get_bind Run.liftKnown_leads
    | _ => exact .pure fun _ => trivial

theorem entryFor?_leads (index : Nat) (thrown : RefType)
    (handlers : List (HandlerRange × Option ClassName)) :
    Run.Leads D P (fun _ => True) (entryFor? index thrown handlers) m := by
  induction handlers generalizing m P with
  | nil => exact .pure fun _ => trivial
  | cons h rest ih =>
    obtain ⟨range, caught⟩ := h
    simp only [entryFor?]
    split
    · refine .bind (catches_leads caught thrown) fun holds m' _ => ?_
      cases holds with
      | true => exact .pure fun _ => trivial
      | false => exact ih
    · exact ih

/-- A handler starts with the exception on the stack. -/
theorem handle_leads (body : Body) (a : Activation) (r : Ref) :
    Run.Leads D P Activation.Sound (body.handle a r) m := by
  refine .object_bind fun o _ => .bind (entryFor?_leads _ _ _) fun entry m' _ => ?_
  cases entry with
  | none => exact .throw
  | some entry =>
    refine .pure fun _ v hv => ?_
    rw [List.mem_singleton.mp hv]
    exact nofun

/-- What comes after a step is sound. -/
def Next.Sound : Next → Prop
  | .continue a => a.Sound
  | .return v => Run.Definite v

/-- A step is as steady as its instruction, since a handler starts from what is there. -/
theorem advance_leads {a : Activation} {i : Instruction} (hi : body.instructions[a.index]? = some i)
    (hexec : Step.SteadyAt D P Step.Returns (Step.execute callees i) a m) :
    Run.Leads D (P ∧ a.Sound) Next.Sound (body.advance callees a) m := by
  rw [Run.Leads, advance_eq hi]
  cases hx : Step.execute callees i a m with
  | ok p m' =>
    obtain ⟨progress, b⟩ := p
    rw [Step.SteadyAt, hx] at hexec
    obtain ⟨_, _, hlater, hsound⟩ := hexec
    cases progress with
    | next =>
      exact ⟨hlater, fun hp hm => ⟨(hsound hp.1 hp.2 hm).2.1, (hsound hp.1 hp.2 hm).1⟩⟩
    | jump l =>
      simp only [afterExecute]
      cases body.positions.find l with
      | ok index =>
        exact ⟨hlater, fun hp hm => ⟨(hsound hp.1 hp.2 hm).2.1, (hsound hp.1 hp.2 hm).1⟩⟩
      | error e => exact ⟨hlater, fun hp hm => (hsound hp.1 hp.2 hm).2.1⟩
    | done v =>
      exact ⟨hlater, fun hp hm =>
        ⟨(hsound hp.1 hp.2 hm).2.1, (hsound hp.1 hp.2 hm).2.2 v rfl⟩⟩
  | error e m' =>
    rw [Step.SteadyAt, hx] at hexec
    obtain ⟨hlater, hsound⟩ := hexec
    cases e with
    | failure e => exact ⟨hlater, fun hp hm => hsound hp.1 hp.2 hm⟩
    | exception r =>
      have hhandle : Run.Leads D P Activation.Sound (body.handle a r) m' := handle_leads body a r
      simp only [Run.Leads] at hhandle
      simp only [afterExecute]
      cases hh : body.handle a r m' with
      | ok b m'' =>
        rw [hh] at hhandle
        exact ⟨hlater.trans hhandle.1, fun hp hm => hhandle.2 hp.1 (hsound hp.1 hp.2 hm)⟩
      | error e m'' =>
        rw [hh] at hhandle
        exact ⟨hlater.trans hhandle.1, fun hp hm => hhandle.2 hp.1 (hsound hp.1 hp.2 hm)⟩

/-- Past the last instruction there is no step. -/
theorem advance_ranOff {a : Activation} (hi : body.instructions[a.index]? = none) :
    Run.Leads D P Next.Sound (body.advance callees a) m := by
  have hrun : body.advance callees a m = .error (.failure (.badCode a.method a.index .ranOff)) m := by
    simp only [advance, hi]
    rfl
  rw [Run.Leads, hrun]
  exact ⟨.refl m, fun _ hm => hm⟩

/-- A run takes a step and goes on from there. -/
theorem runFor_succ (limit steps : Nat) (a : Activation) :
    body.runFor callees limit (steps + 1) a m =
      match body.advance callees a m with
      | .ok (.continue b) m' => body.runFor callees limit steps b m'
      | .ok (.return v) m' => .ok v m'
      | .error e m' => .error e m' := by
  simp only [runFor, bind, EStateM.bind]
  cases body.advance callees a m with
  | ok next m' => cases next <;> rfl
  | error e m' => rfl

/-- **A run of a body.** `I` is what activations satisfy that are under way; it has to say of those
that are about to make a method state that the state has a good key. -/
theorem runFor_leads (I : Activation → Machine → Prop)
    (hstep : ∀ a m, m.natives = N →
      Run.Leads D (I a m ∧ a.Sound) Next.Sound (body.advance callees a) m)
    (hkeep : ∀ a m b m', m.natives = N → I a m → a.Sound → m.Sound D →
      body.advance callees a m = .ok (.continue b) m' → I b m')
    (limit steps : Nat) (a : Activation) (hm : m.natives = N) :
    Run.Leads D (I a m ∧ a.Sound) Run.Definite (body.runFor callees limit steps a) m := by
  -- by induction on the steps; `I` is what the caller knows of the activation, which each step
  -- keeps
  induction steps generalizing a m with
  | zero => exact .fail
  | succ steps ih =>
    have hadvance := hstep a m hm
    simp only [Run.Leads] at hadvance
    rw [Run.Leads, runFor_succ]
    cases hx : body.advance callees a m with
    | error e m' =>
      rw [hx] at hadvance
      exact hadvance
    | ok next m' =>
      rw [hx] at hadvance
      obtain ⟨hlater, hsound⟩ := hadvance
      cases next with
      | «return» v => exact ⟨hlater, hsound⟩
      | «continue» b =>
        have hb := ih (m := m') b (hlater.natives.trans hm)
        simp only [Run.Leads] at hb ⊢
        split at hb
        · exact ⟨hlater.trans hb.1, fun hp hs => hb.2
            ⟨hkeep a m b m' hm hp.1 hp.2 hs hx, (hsound hp hs).2⟩ (hsound hp hs).1⟩
        · exact ⟨hlater.trans hb.1, fun hp hs => hb.2
            ⟨hkeep a m b m' hm hp.1 hp.2 hs hx, (hsound hp hs).2⟩ (hsound hp hs).1⟩

end Body

/-! ## Methods -/

/-- A body of an admitted method, whose calls are answered by a steady runner, is steady. -/
def Discipline.Kept (D : Discipline) (N : List (MethodRef × Native)) : Prop :=
  ∀ owner method c body run, method.code = some c → Body.ofCode c = .ok body →
    MethodRunner.Steady D N run → ∀ limit steps a m, m.natives = N → a.index = 0 → a.stack = [] →
    Run.Leads D (D.code owner method) Run.Definite (body.runFor (Run.callees run) limit steps a) m

/-- Where any key is admitted, every body is steady. -/
theorem Discipline.kept_of_keys (hkeys : ∀ k, D.key k) : D.Kept N := by
  intro owner method c body run _ _ hrun limit steps a m hm _ hstack
  refine (Body.runFor_leads (fun _ _ => True) (fun a m hm => ?_)
    (fun _ _ _ _ _ _ _ _ _ => trivial) limit steps a hm).mono (fun _ => ⟨trivial, ?_⟩) fun _ _ h => h
  · cases hi : body.instructions[a.index]? with
    | none => exact Body.advance_ranOff hi
    | some i =>
      exact Body.advance_leads hi (Step.execute_steady (Run.callees_steady hrun) i
        (fun _ => .inr hkeys) a m hm)
  · rw [Activation.Sound, hstack]
    exact nofun

/-- No demands. -/
def Discipline.none : Discipline := ⟨fun _ => True, fun _ _ => True⟩

theorem Discipline.none_kept (N : List (MethodRef × Native)) : Discipline.none.Kept N :=
  Discipline.kept_of_keys fun _ => trivial

theorem runMethod_steady (hkept : D.Kept N) (limit depth : Nat) :
    (runMethod limit depth).Steady D N := by
  induction depth with
  | zero => exact fun _ _ _ _ _ _ _ _ => .get_bind .fail
  | succ depth ih =>
    intro P owner method arguments m hm hcode _
    simp only [runMethod]
    cases hc : method.code with
    | none => exact .fail
    | some c =>
      cases hbody : Body.ofCode c with
      | error e => simp only [hbody]; exact .fail
      | ok body =>
        simp only [hbody]
        exact (hkept owner method c body _ hc hbody ih _ _ _ m hm rfl rfl).mono
          hcode fun _ _ h => h

end Resumption
