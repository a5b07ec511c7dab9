import Resumption.Proofs.Machine.Order

/-!
# What a run can do to a machine

`Run.Leads` says of a computation that it leads to a machine that running code can make of the one
it started on, and from a sound one to a sound one. It has one rule for each way to put computations
together, and each computation of the machine has one lemma, up to the natives (`native_leads`).

The conditions for soundness are collected on the way, in the proposition `P`: after a value was
computed, `P` also says what is known about it. So the unconditional part, that the machine is a
later one, never depends on them.
-/

namespace Resumption

variable {D : Discipline} {P : Prop} {α β : Type}

/-- Taking a state moves on in what was saved and leaves it alone. -/
theorem Continuation.loadNext_keeps {c : Continuation Ref} {loaded : Ref × Continuation Ref}
    (h : c.loadNext = .ok loaded) : loaded.2.saved = c.saved ∧ loaded.2.first = c.first := by
  unfold loadNext at h
  split at h
  · cases h
  · cases h
    exact ⟨rfl, rfl⟩

/-! ## Computations on a machine -/

namespace Run

/-- Every end of the computation is what running code can make of the machine, and sound if `P`
holds and the machine was sound; a result then satisfies `V`. -/
def Leads (D : Discipline) (P : Prop) (V : α → Prop) (x : Run α) (m : Machine) : Prop :=
  match x m with
  | .ok a m' => m.Proceeds m' ∧ (P → m.Sound D → m'.Sound D ∧ V a)
  | .error _ m' => m.Proceeds m' ∧ (P → m.Sound D → m'.Sound D)

variable {V : α → Prop} {W : β → Prop} {x : Run α} {m : Machine}

namespace Leads

/-- A value leads to the machine as it is. -/
theorem pure {a : α} (h : P → V a) : Leads D P V (Pure.pure a) m :=
  ⟨.refl m, fun hp hm => ⟨hm, h hp⟩⟩

/-- One computation after the other leads where both lead. -/
theorem bind {f : α → Run β} (hx : Leads D P V x m)
    (hf : ∀ a m', m.Proceeds m' → Leads D (P ∧ V a) W (f a) m') : Leads D P W (x >>= f) m := by
  simp only [Leads, Bind.bind, EStateM.bind] at *
  cases hxm : x m with
  | ok a m' =>
    rw [hxm] at hx
    have hf' := hf a m' hx.1
    simp only at hf' ⊢
    split at hf'
    · exact ⟨hx.1.trans hf'.1, fun hp hm => hf'.2 ⟨hp, (hx.2 hp hm).2⟩ (hx.2 hp hm).1⟩
    · exact ⟨hx.1.trans hf'.1, fun hp hm => hf'.2 ⟨hp, (hx.2 hp hm).2⟩ (hx.2 hp hm).1⟩
  | error e m' =>
    rw [hxm] at hx
    exact hx

/-- A computation leads to what follows from where it leads. -/
theorem mono {Q : Prop} {U : α → Prop} (h : Leads D P V x m) (hpq : Q → P)
    (hvu : ∀ a, Q → V a → U a) : Leads D Q U x m := by
  simp only [Leads] at *
  split at h
  · exact ⟨h.1, fun hq hm => ⟨(h.2 (hpq hq) hm).1, hvu _ hq (h.2 (hpq hq) hm).2⟩⟩
  · exact ⟨h.1, fun hq hm => h.2 (hpq hq) hm⟩

/-- What soundness of the machine gives may be used on the way. -/
theorem assume {F : Prop} (hfact : P → m.Sound D → F) (h : Leads D (P ∧ F) V x m) :
    Leads D P V x m := by
  simp only [Leads] at *
  split at h
  · exact ⟨h.1, fun hp hm => h.2 ⟨hp, hfact hp hm⟩ hm⟩
  · exact ⟨h.1, fun hp hm => h.2 ⟨hp, hfact hp hm⟩ hm⟩

theorem get_bind {f : Machine → Run β} (h : Leads D P W (f m) m) :
    Leads D P W (MonadState.get >>= f) m := h

/-- An exception leaves the machine as it is. -/
theorem throw {e : Abrupt} : Leads D P V (MonadExcept.throw e) m := ⟨.refl m, fun _ hm => hm⟩

/-- A failure leaves the machine as it is. -/
theorem fail {e : RunError} : Leads D P V (Run.fail e) m := throw

/-- Nothing runs after a failure. -/
theorem fail_bind {e : RunError} {f : α → Run β} : Leads D P W (Run.fail e >>= f) m :=
  ⟨.refl m, fun _ hm => hm⟩

/-- A change of the machine. -/
theorem modify {f : Machine → Machine} (hlater : m.Proceeds (f m))
    (hsound : P → m.Sound D → (f m).Sound D) :
    Leads D P (fun _ => True) (MonadState.modifyGet fun s => ((), f s)) m :=
  ⟨hlater, fun hp hm => ⟨hsound hp hm, trivial⟩⟩

/-- Looking an object up says what it is. -/
theorem object_bind {r : Ref} {f : HeapObject → Run β}
    (h : ∀ o, m.object? r = some o → Leads D P W (f o) m) :
    Leads D P W (Run.object r >>= f) m := by
  cases ho : m.object? r with
  | some o =>
    have hrun : (Run.object r >>= f) m = f o m := by
      simp only [Run.object, Bind.bind, EStateM.bind, MonadState.get, getThe, MonadStateOf.get,
        EStateM.get, ho, Pure.pure, EStateM.pure]
    rw [Leads, hrun]
    exact h o ho
  | none =>
    have hrun : (Run.object r >>= f) m = .error (.failure (.badReference (.notOnHeap r))) m := by
      simp only [Run.object, Bind.bind, EStateM.bind, MonadState.get, getThe, MonadStateOf.get,
        EStateM.get, ho, Run.fail, MonadExcept.throw, throwThe, MonadExceptOf.throw, EStateM.throw]
    rw [Leads, hrun]
    exact ⟨.refl m, fun _ hm => hm⟩

/-- An object is replaced by what it can become. -/
theorem setObject {r : Ref} {o : HeapObject}
    (hproceeds : ∀ o', m.object? r = some o' → o'.Proceeds o)
    (hsound : P → ∀ o', m.object? r = some o' → o'.Sound D.key → o.Sound D.key) :
    Leads D P (fun _ => True) (Run.setObject r o) m :=
  modify (.set hproceeds) fun hp hm => hm.set (fun o' ho' => (hproceeds o' ho').1) fun o' ho' =>
    hsound hp o' ho' (hm.objects r o' ho')

/-- Allocating a sound object leads to a sound machine. -/
theorem alloc {o : HeapObject} (hsound : P → o.Sound D.key) (hstring : ∀ s, o ≠ .string s)
    (hstream : o ≠ .printStream) : Leads D P (fun _ => True) (Run.alloc o) m :=
  ⟨.alloc m o, fun hp hm => ⟨hm.alloc (hsound hp) hstring hstream, trivial⟩⟩

/-- A new object is where it was put. -/
theorem alloc_bind {o : HeapObject} {f : Ref → Run β} (hsound : P → o.Sound D.key)
    (hstring : ∀ s, o ≠ .string s) (hstream : o ≠ .printStream)
    (h : Leads D P W (f (m.alloc o).1) (m.alloc o).2) : Leads D P W (Run.alloc o >>= f) m := by
  have hrun : (Run.alloc o >>= f) m = f (m.alloc o).1 (m.alloc o).2 := rfl
  simp only [Leads, hrun] at *
  split at h
  · exact ⟨(Machine.Proceeds.alloc m o).trans h.1,
      fun hp hm => h.2 hp (hm.alloc (hsound hp) hstring hstream)⟩
  · exact ⟨(Machine.Proceeds.alloc m o).trans h.1,
      fun hp hm => h.2 hp (hm.alloc (hsound hp) hstring hstream)⟩

/-- Interning leads to a sound machine. -/
theorem intern {s : String} : Leads D P (fun _ => True) (Run.intern s) m :=
  ⟨.intern m s, fun _ hm => ⟨hm.intern s, trivial⟩⟩

end Leads

/-- No value of the list is `top`. -/
def NoTop (vs : List Value) : Prop := ∀ v ∈ vs, v ≠ .top

/-- Lifted computations do not touch the machine. -/
theorem liftRun_leads {x : Except RunError α} : Leads D P (fun _ => True) (liftRun x) m := by
  cases x with
  | ok a => exact .pure fun _ => trivial
  | error e => exact .fail

/-- Making an exception object leads to a sound machine. -/
theorem newThrowable_leads {owner : ClassName} {message : String} :
    Leads D P (fun _ => True) (newThrowable owner message) m := by
  refine .bind .intern fun text m' _ => ?_
  refine .alloc (fun _ => .instance_ (fun f hf => ?_) (List.pairwise_singleton _ _)) nofun nofun
  rw [List.mem_singleton.mp hf]
  exact nofun

/-- Raising an exception leads to a sound machine. -/
theorem raise_leads {owner : ClassName} {message : String} :
    Leads D P V (raise (α := α) owner message) m :=
  .bind newThrowable_leads fun _ _ _ => .throw

/-- Nothing comes after an exception. -/
theorem raise_bind {owner : ClassName} {message : String} {f : α → Run β} :
    Leads D P W (raise owner message >>= f) m := by
  have hraise : Leads D P W (raise (α := β) owner message) m := raise_leads
  exact hraise

/-- Asking for a reference leads to a sound machine. -/
theorem nonNull_leads {r : Option Ref} : Leads D P (fun _ => True) (nonNull r) m := by
  cases r with
  | some r => exact .pure fun _ => trivial
  | none => exact raise_leads

/-! ## Arrays -/

/-- Fields never start as `top`. -/
theorem zero_ne_top (t : FieldType) : Value.zero t ≠ .top := by
  cases t with
  | base b => cases b <;> nofun
  | ref t => nofun

/-- A length that is not negative. -/
theorem allocateArray_of_nonneg {type : RefType} {element : FieldType} {count : Int32}
    (hcount : ¬ count < 0) (helement : type.element? = some element) :
    allocateArray type count =
      Run.alloc (.array type (Array.replicate count.toInt.toNat (Value.zero element))) := by
  simp only [allocateArray, hcount, if_false, helement]

/-- A new array is there when the computation goes on. -/
theorem allocateArray_bind {type : RefType} {count : Int32} {f : Ref → Run β}
    (h : ∀ r m' vs, m.Proceeds m' → m'.object? r = some (.array type vs) →
      Leads D P W (f r) m') : Leads D P W (allocateArray type count >>= f) m := by
  by_cases hcount : count < 0
  · simp only [allocateArray, hcount, if_true, bind_assoc]
    exact raise_bind
  · cases helement : type.element? with
    | none =>
      simp only [allocateArray, hcount, if_false, helement]
      exact .fail_bind
    | some element =>
      rw [allocateArray_of_nonneg hcount helement]
      refine .alloc_bind (fun _ => .array fun v hv => ?_) nofun nofun
        (h _ _ _ (.alloc m _) (Machine.object?_alloc_self m _))
      rw [(Array.mem_replicate.mp hv).2]
      exact zero_ne_top _
/-- Allocating an array leads to a sound machine. -/
theorem allocateArray_leads {type : RefType} {count : Int32} :
    Leads D P (fun _ => True) (allocateArray type count) m := by
  rw [← bind_pure (allocateArray type count)]
  exact allocateArray_bind fun _ _ _ _ _ => .pure fun _ => trivial

/-- Checking an index leads to a sound machine. -/
theorem position_leads {index : Int32} {length : Nat} :
    Leads D P (fun _ => True) (position index length) m := by
  unfold position
  split
  · exact .pure fun _ => trivial
  · exact raise_leads

/-- The elements of an array, which is on the heap. -/
theorem elements_bind {r : Ref} {f : RefType × Array Value → Run β}
    (h : ∀ t vs, m.object? r = some (.array t vs) → Leads D P W (f (t, vs)) m) :
    Leads D P W (elements r >>= f) m := by
  rw [elements, bind_assoc]
  refine .object_bind fun o ho => ?_
  cases o with
  | array t vs => exact h t vs ho
  | _ => exact .fail_bind

/-- An element that was read is not `top`. -/
theorem arrayElement_leads {array : Option Ref} {index : Int32} :
    Leads D P (· ≠ .top) (arrayElement array index) m := by
  refine .bind nonNull_leads fun r m' _ => elements_bind fun t vs ho => ?_
  refine .assume (fun _ hm => (hm.objects _ _ ho).element_ne) ?_
  refine .bind position_leads fun i _ _ => .pure fun h => ?_
  rw [Array.getD_eq_getD_getElem?]
  cases hi : vs[i]? with
  | none => exact nofun
  | some v => exact h.1.2 v (Array.mem_of_getElem? hi)

/-- Writing an element that is not `top` leads to a sound machine. -/
theorem setArrayElement_leads {array : Option Ref} {index : Int32} {v : Value}
    (hv : P → v ≠ .top) : Leads D P (fun _ => True) (setArrayElement array index v) m := by
  refine .bind nonNull_leads fun r m' _ => elements_bind fun t vs ho => ?_
  refine .assume (fun _ hm => (hm.objects _ _ ho).element_ne) ?_
  refine .bind position_leads fun i m'' hm' => .setObject (fun o' ho' => ?_) fun h o' _ _ => ?_
  · exact .of_evolves ((hm'.evolves ho ho').symm.trans rfl) nofun
  · refine .array fun w hw => ?_
    rcases Array.mem_or_eq_of_mem_setIfInBounds hw with hw | rfl
    · exact h.1.2 w hw
    · exact hv h.1.1.1

/-- What leads to a sound machine does so any number of times. -/
theorem repeated_leads {run : Run Ref} (h : ∀ m, Leads D P (fun _ => True) run m) (n : Nat) :
    Leads D P (fun _ => True) (repeated run n) m := by
  induction n generalizing m with
  | zero => exact .pure fun _ => trivial
  | succ n ih =>
    refine .bind (h m) fun r m' _ =>
      .bind (V := fun _ => True) (ih.mono (fun hp => hp.1) fun _ _ h => h) fun _ _ _ => ?_
    exact .pure fun _ => trivial

/-- Arrays of arrays: the outer one is filled with the inner ones, which are references. -/
theorem allocateArrays_leads {type : RefType} {counts : List Int32} :
    Leads D P (fun _ => True) (allocateArrays type counts) m := by
  -- one dimension after the other; the inner arrays are made before they are put in the outer one
  induction counts generalizing type m P with
  | nil => exact .fail
  | cons count rest ih =>
    cases rest with
    | nil => exact allocateArray_leads
    | cons count' rest =>
      simp only [allocateArrays]
      refine allocateArray_bind fun r m' vs _ hr => ?_
      cases type.element? with
      | none => exact .fail
      | some element =>
        cases element with
        | base b => exact .fail
        | ref inner =>
          refine .bind (repeated_leads (fun m => ih) _) fun arrays m'' hm' => ?_
          refine .bind (.setObject (fun o' ho' => .of_evolves ((hm'.evolves hr ho').symm.trans rfl)
            nofun) ?_) fun _ _ _ => .pure fun _ => trivial
          refine fun _ o' _ _ => .array fun v hv => ?_
          obtain ⟨a, -, rfl⟩ := List.mem_map.mp (List.mem_toArray.mp hv)
          exact nofun

/-! ## Objects, fields and monitors -/

/-- Questions about the hierarchy do not touch the machine. -/
theorem liftKnown_leads {x : Known α} : Leads D P (fun _ => True) (liftKnown x) m := by
  cases x with
  | ok a => exact .pure fun _ => trivial
  | error e => exact .fail

/-- The test for a type leads to a sound machine. -/
theorem isInstance_leads {r : Ref} {type : RefType} :
    Leads D P (fun _ => True) (isInstance r type) m := by
  refine .object_bind fun o _ => .get_bind ?_
  cases o.type <;> cases type <;> exact liftKnown_leads

/-- Fields at their zero values are in order and none is `top`. -/
theorem zeroFields_sound (classes : List Class) (fuel : Nat) (name : Option ClassName)
    (fields : FieldValues) (htop : ∀ f ∈ fields, f.2 ≠ .top) (hordered : FieldValues.Ordered fields) :
    (∀ f ∈ zeroFields classes fuel name fields, f.2 ≠ .top) ∧
      FieldValues.Ordered (zeroFields classes fuel name fields) := by
  have hfold : ∀ (own : List Field) (fields : FieldValues), (∀ f ∈ fields, f.2 ≠ .top) →
      FieldValues.Ordered fields →
      (∀ f ∈ own.foldl (fun fields f => fields.setNew f.name (Value.zero f.type)) fields,
        f.2 ≠ .top) ∧ FieldValues.Ordered
          (own.foldl (fun fields f => fields.setNew f.name (Value.zero f.type)) fields) := by
    intro own
    induction own with
    | nil => exact fun _ htop hordered => ⟨htop, hordered⟩
    | cons f own ih =>
      intro fields htop hordered
      refine ih _ (fun g hg => ?_) (hordered.setNew _ _)
      simp only [FieldValues.setNew] at hg
      split at hg
      · exact htop g hg
      · rcases FieldValues.mem_set hg with rfl | hg
        · exact zero_ne_top _
        · exact htop g hg
  induction fuel generalizing name fields with
  | zero => exact ⟨htop, hordered⟩
  | succ fuel ih =>
    cases name with
    | none => exact ⟨htop, hordered⟩
    | some name =>
      simp only [zeroFields]
      split
      · exact ⟨htop, hordered⟩
      · obtain ⟨htop', hordered'⟩ := hfold _ fields htop hordered
        exact ih _ _ htop' hordered'

/-- A new instance starts with sound fields. -/
theorem newInstance_leads {owner : ClassName} :
    Leads D P (fun _ => True) (newInstance owner) m := by
  refine .get_bind (.alloc (fun _ => ?_) nofun nofun)
  obtain ⟨htop, hordered⟩ := zeroFields_sound m.classes (m.classes.length + 1) (some owner) []
    nofun .nil
  exact .instance_ htop hordered

/-- The fields of an instance, which is on the heap. -/
theorem instanceFields_bind {r : Ref} {f : ClassName × FieldValues → Run β}
    (h : ∀ c fields, m.object? r = some (.instance c fields) → Leads D P W (f (c, fields)) m) :
    Leads D P W (instanceFields r >>= f) m := by
  rw [instanceFields, bind_assoc]
  refine .object_bind fun o ho => ?_
  cases o with
  | «instance» c fields => exact h c fields ho
  | _ => exact .fail_bind

/-- What a lookup finds is in the list. -/
theorem lookup_mem {γ δ : Type} [BEq γ] [LawfulBEq γ] {entries : List (γ × δ)} {key : γ} {v : δ}
    (h : entries.lookup key = some v) : (key, v) ∈ entries := by
  induction entries with
  | nil => cases h
  | cons e rest ih =>
    obtain ⟨k, w⟩ := e
    by_cases hk : key = k
    · subst hk
      simp only [List.lookup, beq_self_eq_true, Option.some.injEq] at h
      rw [h]
      exact List.mem_cons_self ..
    · simp only [List.lookup, beq_false_of_ne hk] at h
      exact List.mem_cons_of_mem _ (ih h)

/-- A field that was read is not `top`. -/
theorem getField_leads {r : Ref} {field : FieldRef} :
    Leads D P (· ≠ .top) (getField r field) m := by
  refine instanceFields_bind fun c fields ho => ?_
  refine .assume (fun _ hm => (hm.objects _ _ ho).field_ne) (.pure fun h => ?_)
  cases hf : fields.get? field.name with
  | none => exact zero_ne_top _
  | some v => exact h.2 _ (lookup_mem hf)

/-- Writing a field with what is not `top` leads to a sound machine. -/
theorem putField_leads {r : Ref} {field : FieldRef} {v : Value} (hv : P → v ≠ .top) :
    Leads D P (fun _ => True) (putField r field v) m := by
  refine instanceFields_bind fun c fields ho => .setObject (fun o' ho' => ?_) fun hp o' ho' hs => ?_
  · rw [ho] at ho'
    cases ho'
    exact .of_evolves rfl nofun
  · rw [ho] at ho'
    cases ho'
    exact hs.setField _ (hv hp)

/-- A static field that was read is not `top`. -/
theorem getStatic_leads {field : FieldRef} : Leads D P (· ≠ .top) (getStatic field) m := by
  refine .get_bind (.assume (fun _ hm => hm.statics) (.pure fun h => ?_))
  cases hf : m.statics.lookup (field.owner, field.name) with
  | none => exact zero_ne_top _
  | some v => exact h.2 _ (lookup_mem hf)

/-- A static field after setting one is the one set or was there before. -/
theorem mem_setStatic {key : ClassName × MemberName} {v : Value}
    {statics : List ((ClassName × MemberName) × Value)} {e : (ClassName × MemberName) × Value}
    (h : e ∈ setStatic key v statics) : e = (key, v) ∨ e ∈ statics := by
  induction statics with
  | nil => exact .inl (List.mem_singleton.mp h)
  | cons f rest ih =>
    obtain ⟨other, old⟩ := f
    simp only [setStatic] at h
    split at h
    · exact (List.mem_cons.mp h).imp_right (List.mem_cons_of_mem _)
    · rcases List.mem_cons.mp h with he | he
      · exact .inr (he ▸ List.mem_cons_self ..)
      · exact (ih he).imp_right (List.mem_cons_of_mem _)

/-- Writing a static field with what is not `top` leads to a sound machine. -/
theorem putStatic_leads {field : FieldRef} {v : Value} (hv : P → v ≠ .top) :
    Leads D P (fun _ => True) (putStatic field v) m := by
  refine .modify (.of_heap_eq rfl rfl rfl rfl (fun _ h => h) rfl rfl) fun hp hm =>
    hm.of_heap_eq rfl rfl (fun e he => ?_) rfl rfl
  rcases mem_setStatic he with rfl | he
  · exact hv hp
  · exact hm.statics e he

/-- Asking for a length leads to a sound machine. -/
theorem arrayLength_leads {r : Ref} : Leads D P (fun _ => True) (arrayLength r) m :=
  elements_bind fun _ _ _ => .pure fun _ => trivial

/-- A cast leads to a sound machine. -/
theorem checkCast_leads {v : Value} {type : RefType} :
    Leads D P (fun _ => True) (checkCast v type) m := by
  cases v with
  | ref r =>
    refine .bind isInstance_leads fun holds m' _ => ?_
    cases holds with
    | true => exact .pure fun _ => trivial
    | false => exact .object_bind fun o _ => raise_leads
  | _ => exact .pure fun _ => trivial

/-- Changes of monitors, output, probes and pool. -/
theorem aside_leads {f : Machine → Machine} (hclasses : (f m).classes = m.classes)
    (hnatives : (f m).natives = m.natives) (hdepth : (f m).maxDepth = m.maxDepth)
    (hsteps : (f m).maxSteps = m.maxSteps) (hinit : (f m).initialized = m.initialized)
    (hstrings : (f m).strings = m.strings) (hheap : (f m).heap = m.heap)
    (hstatics : (f m).statics = m.statics) :
    Leads D P (fun _ => True) (MonadState.modifyGet fun s => ((), f s)) m :=
  .modify (.of_heap_eq hclasses hnatives hdepth hsteps (fun _ h => hinit ▸ h) hstrings hheap)
    fun _ hm => hm.of_heap_eq hheap hstrings (fun e he => hm.statics e (hstatics ▸ he)) hnatives hclasses

/-- Entering a monitor leads to a sound machine. -/
theorem enterMonitor_leads {r : Ref} : Leads D P (fun _ => True) (enterMonitor r) m :=
  aside_leads rfl rfl rfl rfl rfl rfl rfl rfl

/-- Exiting a monitor leads to a sound machine. -/
theorem exitMonitor_leads {r : Ref} : Leads D P (fun _ => True) (exitMonitor r) m := by
  refine .get_bind ?_
  cases m.monitors.exit? r with
  | some monitors => exact aside_leads rfl rfl rfl rfl rfl rfl rfl rfl
  | none => exact raise_leads

/-! ## Natives

The arguments of a native are looked at before anything changes, so each look keeps the machine. -/

/-- What follows may assume that the argument was there. -/
theorem argument_bind {arguments : List Value} {index : Nat} {f : Value → Run β}
    (h : ∀ v, arguments[index]? = some v → Leads D P W (f v) m) :
    Leads D P W (argument arguments index >>= f) m := by
  unfold argument
  cases hv : arguments[index]? with
  | none => exact .fail_bind
  | some v => exact h v hv

/-- What follows may assume that the argument was a number. -/
theorem intArgument_bind {arguments : List Value} {index : Nat} {f : Int32 → Run β}
    (h : ∀ n, arguments[index]? = some (.int n) → Leads D P W (f n) m) :
    Leads D P W (intArgument arguments index >>= f) m := by
  rw [intArgument, bind_assoc]
  refine argument_bind fun v hv => ?_
  cases v with
  | int n => exact h n hv
  | _ => exact .fail_bind

/-- What follows may assume a reference. -/
theorem referred_bind {v : Value} {f : Ref → Run β} (h : ∀ r, v = .ref r → Leads D P W (f r) m) :
    Leads D P W (referred v >>= f) m := by
  cases v with
  | ref r => exact h r rfl
  | null => exact raise_bind
  | _ => exact .fail_bind

/-- What follows may assume a coroutine object. -/
theorem continuationAt_bind {v : Value} {f : Ref × Continuation Ref → Run β}
    (h : ∀ r c, m.object? r = some (.continuation c) → Leads D P W (f (r, c)) m) :
    Leads D P W (continuationAt v >>= f) m := by
  rw [continuationAt, bind_assoc]
  refine referred_bind fun r _ => ?_
  rw [bind_assoc]
  refine .object_bind fun o ho => ?_
  cases o with
  | continuation c => exact h r c ho
  | _ => exact .fail_bind

/-- What follows may assume a method state. -/
theorem methodStateAt_bind {v : Value} {f : MethodState → Run β}
    (h : ∀ r s, m.object? r = some (.methodState s) → Leads D P W (f s) m) :
    Leads D P W (methodStateAt v >>= f) m := by
  rw [methodStateAt, bind_assoc]
  refine referred_bind fun r _ => ?_
  rw [bind_assoc]
  refine .object_bind fun o ho => ?_
  cases o with
  | methodState s => exact h r s ho
  | _ => exact .fail_bind

/-- What follows may assume saved data. -/
theorem dataAt_bind {v : Value} {f : DataArrays → Run β}
    (h : ∀ r d, m.object? r = some (.data d) → Leads D P W (f d) m) :
    Leads D P W (dataAt v >>= f) m := by
  rw [dataAt, bind_assoc]
  refine referred_bind fun r _ => ?_
  rw [bind_assoc]
  refine .object_bind fun o ho => ?_
  cases o with
  | data d => exact h r d ho
  | _ => exact .fail_bind

/-- What follows may assume a list of monitors. -/
theorem lockStateAt_bind {v : Value} {f : Ref × LockState Ref → Run β}
    (h : ∀ r l, m.object? r = some (.lockState l) → Leads D P W (f (r, l)) m) :
    Leads D P W (lockStateAt v >>= f) m := by
  rw [lockStateAt, bind_assoc]
  refine referred_bind fun r _ => ?_
  rw [bind_assoc]
  refine .object_bind fun o ho => ?_
  cases o with
  | lockState l => exact h r l ho
  | _ => exact .fail_bind

/-- What follows may assume a string. -/
theorem stringAt_bind {r : Ref} {f : String → Run β}
    (h : ∀ s, m.object? r = some (.string s) → Leads D P W (f s) m) :
    Leads D P W (stringAt r >>= f) m := by
  rw [stringAt, bind_assoc]
  refine .object_bind fun o ho => ?_
  cases o with
  | string s => exact h s ho
  | _ => exact .fail_bind

/-- What follows may assume that the coroutine agreed. -/
theorem liftContinuation_bind {x : Except ContinuationError α} {f : α → Run β}
    (h : ∀ a, x = .ok a → Leads D P W (f a) m) : Leads D P W (liftContinuation x >>= f) m := by
  cases x with
  | ok a => exact h a rfl
  | error e => exact .fail_bind

/-- A continuation is replaced by another state of itself, with the same states saved. -/
theorem setContinuation_leads {r : Ref} {c c' : Continuation Ref}
    (hr : m.object? r = some (.continuation c)) (hsaved : c'.saved = c.saved)
    (hfirst : c'.first = c.first) :
    Leads D P (fun _ => True) (setObject r (.continuation c')) m := by
  refine .setObject (fun o' ho' => ?_) fun _ _ _ _ => .continuation c'
  rw [hr] at ho'
  cases ho'
  exact .continuation hsaved hfirst

/-- A list of monitors may be replaced by any other. -/
theorem setLockState_leads {r : Ref} {l l' : LockState Ref}
    (hr : m.object? r = some (.lockState l)) :
    Leads D P (fun _ => True) (setObject r (.lockState l')) m := by
  refine .setObject (fun o' ho' => ?_) fun _ _ _ _ => .lockState l'
  rw [hr] at ho'
  cases ho'
  exact .of_evolves trivial nofun

/-- A result, if there is one, is not `top`. -/
def Definite (v : Option Value) : Prop := ∀ w, v = some w → w ≠ .top

theorem Definite.none : Definite none := nofun

theorem Definite.some {v : Value} (h : v ≠ .top) : Definite (some v) := fun _ he =>
  Option.some.inj he ▸ h

/-- Would the method state that these arguments make have a good key? -/
def MakesGood (K : FrameKey → Prop) (arguments : List Value) (m : Machine) : Prop :=
  ∀ r owner id version point, arguments[0]? = some (Value.ref r) →
    m.object? r = some (.string owner) → arguments[1]? = some (Value.int id) →
    arguments[2]? = some (Value.int version) → arguments[3]? = some (Value.int point) →
    K { owner, id, version, point }

/-- Natives that make an object give a reference to it. -/
theorem created_leads {o : HeapObject} (hsound : P → o.Sound D.key) (hstring : ∀ s, o ≠ .string s)
    (hstream : o ≠ .printStream) : Leads D P Definite (Native.created o) m :=
  .bind (.alloc hsound hstring hstream) fun _ _ _ => .pure fun _ => .some nofun

/-- Every native leads to a sound machine, if it makes good method states only. -/
theorem native_leads (native : Native) {arguments : List Value} (hargs : P → NoTop arguments)
    (hgood : P → native = .createState → MakesGood D.key arguments m) :
    Leads D P Definite (native.run arguments) m := by
  cases native with
  | getMode =>
    exact argument_bind fun _ _ => continuationAt_bind fun _ _ _ => .pure fun _ => .some (by simp)
  | setMode =>
    refine intArgument_bind fun n _ => liftContinuation_bind fun mode _ => argument_bind fun v _ =>
      continuationAt_bind fun r c hr => ?_
    exact .bind (setContinuation_leads hr rfl rfl) fun _ _ _ => .pure fun _ => .none
  | loadNext =>
    refine argument_bind fun v _ => continuationAt_bind fun r c hr =>
      liftContinuation_bind fun loaded hloaded => ?_
    obtain ⟨hsaved, hfirst⟩ := Continuation.loadNext_keeps hloaded
    exact .bind (setContinuation_leads hr hsaved hfirst) fun _ _ _ => .pure fun _ => .some (by simp)
  | push =>
    refine argument_bind fun _ _ => referred_bind fun _ _ => argument_bind fun _ _ =>
      continuationAt_bind fun r c hr => ?_
    exact .bind (setContinuation_leads hr rfl rfl) fun _ _ _ => .pure fun _ => .none
  | reset =>
    refine argument_bind fun _ _ => continuationAt_bind fun r c hr => ?_
    exact .bind (setContinuation_leads hr rfl rfl) fun _ _ _ => .pure fun _ => .none
  | suspend => exact .fail
  | invalidPoint => exact .bind newThrowable_leads fun _ _ _ => .pure fun _ => .some (by simp)
  | createState =>
    refine argument_bind fun v0 h0 => referred_bind fun r hv => stringAt_bind fun owner ho =>
      intArgument_bind fun id h1 => intArgument_bind fun version h2 =>
      intArgument_bind fun point h3 => argument_bind fun lockState h4 =>
      argument_bind fun locals h5 => argument_bind fun stack h6 => ?_
    subst hv
    refine created_leads (fun hp => ⟨fun v hv => ?_, (by simp), fun s hs => ?_⟩) (by simp) (by simp)
    · have hmem : v ∈ arguments := by
        simp only [HeapObject.values, List.mem_cons, List.not_mem_nil, or_false] at hv
        rcases hv with rfl | rfl | rfl
        · exact List.mem_of_getElem? h4
        · exact List.mem_of_getElem? h5
        · exact List.mem_of_getElem? h6
      exact hargs hp v hmem
    · cases hs
      exact hgood hp rfl r owner id version point h0 ho h1 h2 h3
  | stateNumber which =>
    exact argument_bind fun _ _ => methodStateAt_bind fun _ _ _ => .pure fun _ => .some (by simp)
  | stateObject which =>
    refine argument_bind fun _ _ => methodStateAt_bind fun r s hs => ?_
    refine .assume (fun _ hm => (hm.objects _ _ hs).values) (.pure fun h => .some ?_)
    cases which <;> exact h.2 _ (by simp [HeapObject.values, StateObject.of])
  | createData =>
    refine argument_bind fun v0 h0 => argument_bind fun v1 h1 => argument_bind fun v2 h2 =>
      argument_bind fun v3 h3 => argument_bind fun v4 h4 => ?_
    refine created_leads (fun hp => ⟨fun v hv => ?_, (by simp), (by simp)⟩) (by simp) (by simp)
    have hmem : v ∈ arguments := by
      simp only [HeapObject.values, DataArrays.toList, ValueKind.all, DataArrays.ofKind,
        List.map_cons, List.map_nil, List.mem_cons, List.not_mem_nil, or_false] at hv
      rcases hv with rfl | rfl | rfl | rfl | rfl
      · exact List.mem_of_getElem? h0
      · exact List.mem_of_getElem? h1
      · exact List.mem_of_getElem? h2
      · exact List.mem_of_getElem? h3
      · exact List.mem_of_getElem? h4
    exact hargs hp v hmem
  | dataArray kind =>
    refine argument_bind fun _ _ => dataAt_bind fun r d hd => ?_
    refine .assume (fun _ hm => (hm.objects _ _ hd).values) (.pure fun h => .some ?_)
    exact h.2 _ (List.mem_map_of_mem (by cases kind <;> decide))
  | createLocks => exact created_leads (fun _ => .lockState _) (by simp) (by simp)
  | enterLock =>
    refine argument_bind fun _ _ => referred_bind fun _ _ => argument_bind fun _ _ =>
      lockStateAt_bind fun r l hr => ?_
    exact .bind (setLockState_leads hr) fun _ _ _ => .pure fun _ => .none
  | exitLock =>
    refine argument_bind fun _ _ => referred_bind fun _ _ => argument_bind fun _ _ =>
      lockStateAt_bind fun r l hr => ?_
    exact .bind (setLockState_leads hr) fun _ _ _ => .pure fun _ => .none
  | locksToArray =>
    refine argument_bind fun _ _ => lockStateAt_bind fun r l hr => ?_
    refine created_leads (fun _ => .array fun v hv => ?_) (by simp) (by simp)
    obtain ⟨a, -, rfl⟩ := List.mem_map.mp (List.mem_toArray.mp hv)
    simp
  | println =>
    have hprint : ∀ (line : String) (m : Machine), Leads D (P ∧ True) Definite (do
        MonadState.modifyGet fun m => ((), { m with output := m.output ++ line ++ "\n" })
        return none) m := fun line m =>
      .bind (aside_leads rfl rfl rfl rfl rfl rfl rfl rfl) fun _ _ _ => .pure fun _ => .none
    unfold Native.run
    cases arguments[1]? with
    | none => exact .bind (.pure fun _ => trivial) fun line m' _ => hprint line m'
    | some v => exact .get_bind (.bind liftRun_leads fun line m' _ => hprint line m')
  | recordValue =>
    exact argument_bind fun _ _ => .bind (aside_leads rfl rfl rfl rfl rfl rfl rfl rfl)
      fun _ _ _ => .pure fun _ => .none
  | recordMonitors =>
    exact .bind (aside_leads rfl rfl rfl rfl rfl rfl rfl rfl) fun _ _ _ => .pure fun _ => .none
  | skip => exact .pure fun _ => .none
  | allocate element =>
    refine intArgument_bind fun _ _ => .bind allocateArray_leads fun _ _ _ => ?_
    exact .bind (aside_leads rfl rfl rfl rfl rfl rfl rfl rfl) fun _ _ _ => .pure fun _ =>
      .some (by simp)
  | commit =>
    exact .bind (aside_leads rfl rfl rfl rfl rfl rfl rfl rfl) fun _ _ _ => .pure fun _ => .none
  | rollback =>
    exact .bind (aside_leads rfl rfl rfl rfl rfl rfl rfl rfl) fun _ _ _ => .pure fun _ => .none

end Run

end Resumption
