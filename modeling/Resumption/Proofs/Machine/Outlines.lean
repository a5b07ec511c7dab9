import Resumption.Proofs.Machine.Effects
import Resumption.Proofs.Machine.Quiet

/-!
# What is known while a frame is saved

Code that saves a frame is straight, and what it has on the stack follows from the code alone: the
continuation, constants, arrays with their lengths, and saved values of which nothing is known
(`Content`). An `Outline` is that for the top of the stack, and whether the continuation is known to
be in its variable.

* **`Outline.after?`** is what an instruction makes of an outline.
* **`Step.execute_outlined`**: a step makes just that of an activation. Instructions that a frame is
  saved with (`Instruction.saves`) throw no exception: a variable that holds nothing is all that can
  stop them.
-/

namespace Resumption

variable {α β : Type}

/-- What is known of a value. -/
inductive Content where
  /-- anything -/
  | any
  /-- what is in the variable for the continuation -/
  | own
  /-- a string -/
  | text
  /-- a number that is known -/
  | int (n : Int32)
  /-- an array of a length that is known -/
  | array (length : Nat)
  /-- a saved state -/
  | state
deriving DecidableEq

/-- What is known of an activation. -/
structure Outline where
  /-- Is the continuation in its variable? -/
  sure : Bool
  /-- the top of the stack -/
  top : List Content
deriving DecidableEq

/-! ## Natives and instructions -/

namespace Native

/-- What a native makes of its arguments, if that is known of them. -/
def outline? (sure : Bool) : Native → List Content → Option (Bool × Option Content)
  | .getMode, [.own] => some (true, some .any)
  | .setMode, [.own, _] => some (true, none)
  | .allocate _, [.int n] => if 0 ≤ n then some (sure, some (.array n.toInt.toNat)) else none
  | .createData, [_, _, _, _, _] => some (sure, some .any)
  | .createState, [.text, .int _, .int _, .int _, _, _, _] => some (sure, some .state)
  | .push, [.own, .state] => if sure then some (true, none) else none
  | .commit, [] => some (sure, none)
  | _, _ => none

/-- Natives that a frame is saved with. -/
def saves : Native → Bool
  | .allocate _ | .createData | .createState | .push | .commit => true
  | _ => false

/-- What a native makes of the counts of an allocator. -/
def counts (p : FramePool) : Native → FramePool
  | .allocate _ => { p with pending := p.pending + 1 }
  | .commit => { p with pending := 0, commits := p.commits + 1 }
  | .rollback => { p with pending := 0, rollbacks := p.rollbacks + 1 }
  | _ => p

end Native

namespace Instruction

variable (N : List (MethodRef × Native))

/-- The native that an instruction calls. -/
def native? : Instruction → Option Native
  | .invoke _ ref => N.lookup ref
  | _ => none

/-- Instructions that a frame is saved with. -/
def saves : Instruction → Bool
  | .load _ _ | .pushNull | .pushInt _ | .pushConstant (.string _) | .stack .dup | .arrayStore _ =>
    true
  | .invoke _ ref => (N.lookup ref).any Native.saves
  | _ => false

variable {N : List (MethodRef × Native)} {kind : CallKind} {ref : MethodRef}

/-- A call asks the native that it names. -/
theorem native?_invoke : (invoke kind ref).native? N = N.lookup ref := rfl

/-- A call saves if its native does. -/
theorem saves_invoke : (invoke kind ref).saves N = (N.lookup ref).any Native.saves := rfl

end Instruction

namespace Outline

/-- One more value is known. -/
def push (o : Outline) (c : Content) : Outline := { o with top := c :: o.top }

/-- Nothing is known of the stack. -/
def forget (o : Outline) : Outline := { o with top := [] }

/-- What a call of a native leads to. -/
def call? (o : Outline) (native : Native) (count : Nat) : Option Outline :=
  if native = .println then some o.forget
  else if count ≤ o.top.length then
    (native.outline? o.sure (o.top.take count).reverse).map fun (sure, result) =>
      ⟨sure, result.toList ++ o.top.drop count⟩
  else none

/-- What an instruction leads to; `slot` is the variable for the continuation. -/
def after? (N : List (MethodRef × Native)) (slot : Nat) (o : Outline) :
    Instruction → Option Outline
  | .load _ other => some (o.push (if other = slot then .own else .any))
  | .pushNull => some (o.push .any)
  | .pushInt n => some (o.push (.int n))
  | .pushConstant (.string _) => some (o.push .text)
  | .stack .dup =>
    match o.top with
    | .array length :: _ => some (o.push (.array length))
    | _ => none
  | .stack .pop | .stack .pop2 | .ifInt _ _ | .getStatic _ => some o.forget
  | .arrayStore _ =>
    match o.top with
    | _ :: .int i :: .array length :: top =>
      if 0 ≤ i ∧ i.toInt < length then some { o with top } else none
    | _ => none
  | .invoke kind ref => (N.lookup ref).bind fun native => o.call? native (ref.argumentCount kind)
  | _ => none

/-- What code leads to. -/
def afterAll? (N : List (MethodRef × Native)) (slot : Nat) (o : Outline) (is : List Instruction) :
    Option Outline :=
  is.foldlM (after? N slot) o

variable {N : List (MethodRef × Native)} {slot : Nat} {o o' : Outline} {i : Instruction}
  {is js : List Instruction}

/-- A load pushes the continuation if it is that of its variable. -/
theorem after?_load {kind : ValueKind} {other : Nat} :
    o.after? N slot (.load kind other) = some (o.push (if other = slot then .own else .any)) := rfl

theorem after?_pushInt {n : Int32} : o.after? N slot (.pushInt n) = some (o.push (.int n)) := rfl

theorem after?_text {s : String} :
    o.after? N slot (.pushConstant (.string s)) = some (o.push .text) := rfl

theorem after?_dup {length : Nat} : (o.push (.array length)).after? N slot (.stack .dup) =
    some ((o.push (.array length)).push (.array length)) := rfl

/-- A store within bounds leaves the array on the stack. -/
theorem after?_arrayStore {element : ElementKind} {c : Content} {n : Int32} {length : Nat}
    (hn : 0 ≤ n ∧ n.toInt < length) :
    (((o.push (.array length)).push (.int n)).push c).after? N slot (.arrayStore element) = some o :=
  if_pos hn

/-- A call of a native is what the native makes of its arguments. -/
theorem after?_invoke {kind : CallKind} {ref : MethodRef} {native : Native}
    (h : N.lookup ref = some native) :
    o.after? N slot (.invoke kind ref) = o.call? native (ref.argumentCount kind) := by
  have hcall : o.after? N slot (.invoke kind ref) =
      (N.lookup ref).bind fun native => o.call? native (ref.argumentCount kind) := rfl
  rw [hcall, h, Option.bind_some]

@[simp] theorem afterAll?_nil : afterAll? N slot o [] = some o := rfl

@[simp] theorem afterAll?_cons :
    afterAll? N slot o (i :: is) = (o.after? N slot i).bind fun o => afterAll? N slot o is := rfl

/-- Outlines go through code piece by piece. -/
theorem afterAll?_append :
    afterAll? N slot o (is ++ js) = (afterAll? N slot o is).bind fun o => afterAll? N slot o js :=
  List.foldlM_append

/-- Only a known array is duplicated. -/
theorem of_after?_dup (h : o.after? N slot (.stack .dup) = some o') :
    ∃ length top, o.top = .array length :: top ∧ o' = o.push (.array length) := by
  obtain ⟨sure, top⟩ := o
  rcases top with _ | ⟨_ | _, _⟩ <;> cases h
  exact ⟨_, _, rfl, rfl⟩

/-- A store is outlined only within the bounds of a known array. -/
theorem of_after?_arrayStore {element : ElementKind}
    (h : o.after? N slot (.arrayStore element) = some o') :
    ∃ c n length top, o.top = c :: .int n :: .array length :: top ∧ (0 ≤ n ∧ n.toInt < length) ∧
      o' = { o with top } := by
  obtain ⟨sure, top⟩ := o
  rcases top with _ | ⟨c, _ | ⟨_ | _ | _ | n, _ | ⟨_ | _ | _ | _ | length, top⟩⟩⟩ <;>
    try cases h
  obtain ⟨hn, h⟩ := Option.ite_none_right_eq_some.mp h
  cases h
  exact ⟨c, n, length, top, rfl, hn, rfl⟩

/-- A call of a native of which is known what it does. -/
theorem of_call? {native : Native} {count : Nat} (h : o.call? native count = some o') :
    native = .println ∧ o' = o.forget ∨ count ≤ o.top.length ∧ ∃ sure result,
      native.outline? o.sure (o.top.take count).reverse = some (sure, result) ∧
      o' = ⟨sure, result.toList ++ o.top.drop count⟩ := by
  unfold call? at h
  split at h
  · rename_i hprints
    cases h
    exact .inl ⟨hprints, rfl⟩
  · obtain ⟨hcount, h⟩ := Option.ite_none_right_eq_some.mp h
    obtain ⟨⟨sure, result⟩, houtline, h⟩ := Option.map_eq_some_iff.mp h
    exact .inr ⟨hcount, sure, result, houtline, h.symm⟩

/-- The instruction at a place inside of such code, and what is known before and after it. -/
theorem afterAll?_getElem? {done : Nat} (h : afterAll? N slot o is = some o')
    (hi : is[done]? = some i) : ∃ o₁ o₂, afterAll? N slot o (is.take done) = some o₁ ∧
      o₁.after? N slot i = some o₂ ∧ afterAll? N slot o (is.take (done + 1)) = some o₂ := by
  obtain ⟨hlt, hget⟩ := List.getElem?_eq_some_iff.mp hi
  have hsplit : is = is.take (done + 1) ++ is.drop (done + 1) := (List.take_append_drop ..).symm
  rw [hsplit, afterAll?_append] at h
  obtain ⟨o₂, h₂, -⟩ := Option.bind_eq_some_iff.mp h
  have h₁ := h₂
  rw [List.take_add_one, hi, Option.toList_some, afterAll?_append] at h₁
  obtain ⟨o₁, h₁, hstep⟩ := Option.bind_eq_some_iff.mp h₁
  rw [afterAll?_cons] at hstep
  exact ⟨o₁, o₂, h₁, (Option.bind_fun_some _).symm.trans hstep, h₂⟩

end Outline

/-! ## Activations and machines -/

/-- Objects stay what they are, and arrays keep their lengths. -/
structure Machine.Retains (m m' : Machine) : Prop where
  /-- objects have only evolved -/
  evolves : ∀ r o, m.object? r = some o → ∃ o', m'.object? r = some o' ∧ o.Evolves o'
  /-- arrays have kept their lengths -/
  lengths : ∀ r type values, m.object? r = some (.array type values) →
    ∃ values', m'.object? r = some (.array type values') ∧ values'.size = values.size

/-- What is said of a value; `own` is what is in the variable for the continuation. -/
def Content.Holds (m : Machine) (own : Value) : Content → Value → Prop
  | .any, _ => True
  | .own, v => v = own
  | .text, v => ∃ r s, v = .ref r ∧ m.object? r = some (.string s)
  | .int n, v => v = .int n
  | .array length, v => ∃ r type values,
    v = .ref r ∧ m.object? r = some (.array type values) ∧ values.size = length
  | .state, v => ∃ r, v = .ref r

/-- Is the value a continuation? -/
def Machine.IsContinuation (m : Machine) (v : Value) : Prop :=
  ∃ r c, v = .ref r ∧ m.object? r = some (.continuation c)

/-- Does the outline say the truth about the activation? -/
structure Outline.Fits (slot : Nat) (o : Outline) (a : Activation) (m : Machine) : Prop where
  /-- the continuation is in its variable, if that is known -/
  sure : o.sure = true → m.IsContinuation (a.valueAt slot)
  /-- operands are as they are known -/
  top : ∃ vs rest, a.stack = vs ++ rest ∧
    List.Forall₂ (Content.Holds m (a.valueAt slot)) o.top vs

namespace Machine

variable {m m' : Machine}

namespace Retains

/-- A machine retains what it has. -/
theorem refl (m : Machine) : m.Retains m :=
  ⟨fun _ o h => ⟨o, h, .refl o⟩, fun _ _ values h => ⟨values, h, rfl⟩⟩

/-- What two runs retain one after the other is retained. -/
theorem trans {m'' : Machine} (h : m.Retains m') (h' : m'.Retains m'') : m.Retains m'' := by
  refine ⟨fun r o ho => ?_, fun r type values ho => ?_⟩
  · obtain ⟨o', ho', he⟩ := h.evolves r o ho
    obtain ⟨o'', ho'', he'⟩ := h'.evolves r o' ho'
    exact ⟨o'', ho'', he.trans he'⟩
  · obtain ⟨values', ho', hsize⟩ := h.lengths r type values ho
    obtain ⟨values'', ho'', hsize'⟩ := h'.lengths r type values' ho'
    exact ⟨values'', ho'', hsize'.trans hsize⟩

/-- Objects that were there are the same. -/
theorem of_objects (h : ∀ r o, m.object? r = some o → m'.object? r = some o) : m.Retains m' :=
  ⟨fun r o ho => ⟨o, h r o ho, .refl o⟩, fun r _ values ho => ⟨values, h r _ ho, rfl⟩⟩

/-- Additions retain everything. -/
theorem adds (h : m.Adds [] m') : m.Retains m' := .of_objects fun _ _ => h.same

/-- An object was replaced by one that it can become; arrays keep their lengths. -/
theorem put {r : Ref} {o o' : HeapObject} (ho : m.object? r = some o) (hevolves : o.Evolves o')
    (hlength : ∀ type values, o = .array type values →
      ∃ values', o' = .array type values' ∧ values'.size = values.size) : m.Retains (m.put r o') := by
  refine ⟨fun r' o'' ho'' => ?_, fun r' type values ho'' => ?_⟩
  · by_cases hr : r' = r
    · subst hr
      rw [ho] at ho''
      cases ho''
      exact ⟨o', object?_put_self ho, hevolves⟩
    · exact ⟨o'', (object?_put_of_ne hr).trans ho'', .refl o''⟩
  · by_cases hr : r' = r
    · subst hr
      rw [ho] at ho''
      cases ho''
      obtain ⟨values', rfl, hsize⟩ := hlength type values rfl
      exact ⟨values', object?_put_self ho, hsize⟩
    · exact ⟨values, (object?_put_of_ne hr).trans ho'', rfl⟩

/-- Changing a coroutine object retains everything. -/
theorem putContinuation {r : Ref} {c c' : Continuation Ref}
    (h : m.object? r = some (.continuation c)) : m.Retains (m.put r (.continuation c')) :=
  .put h (.continuation c c') nofun

end Retains

/-- A coroutine object stays one. -/
theorem IsContinuation.later {v : Value} (h : m.IsContinuation v)
    (hlater : ∀ r o, m.object? r = some o → ∃ o', m'.object? r = some o' ∧ o.Evolves o') :
    m'.IsContinuation v := by
  obtain ⟨r, c, rfl, ho⟩ := h
  obtain ⟨o', ho', hevolves⟩ := hlater r _ ho
  obtain ⟨c', rfl⟩ := hevolves.of_continuation
  exact ⟨r, c', rfl, ho'⟩

end Machine

namespace Content

variable {m m' : Machine} {own v : Value}

/-- What is known of a value stays true. -/
theorem Holds.keeps {c : Content} (h : c.Holds m own v) (hm : m.Retains m') : c.Holds m' own v := by
  cases c with
  | text =>
    obtain ⟨r, s, rfl, ho⟩ := h
    obtain ⟨o', ho', hevolves⟩ := hm.evolves r _ ho
    cases hevolves.of_string
    exact ⟨r, s, rfl, ho'⟩
  | array length =>
    obtain ⟨r, type, values, rfl, ho, hsize⟩ := h
    obtain ⟨values', ho', hsize'⟩ := hm.lengths r type values ho
    exact ⟨r, type, values', rfl, ho', hsize'.trans hsize⟩
  | _ => exact h

end Content

namespace Outline.Fits

variable {slot : Nat} {o : Outline} {a b : Activation} {m m' : Machine}

/-- Another value that is known. -/
theorem push (h : o.Fits slot a m) (hm : m.Retains m') {c : Content} {v : Value}
    (hv : c.Holds m' (a.valueAt slot) v) (hlocals : b.locals = a.locals)
    (hstack : b.stack = v :: a.stack) : (o.push c).Fits slot b m' := by
  have hvalue : b.valueAt slot = a.valueAt slot := congrArg (·.getD slot .top) hlocals
  obtain ⟨vs, rest, hsplit, hvs⟩ := h.top
  refine ⟨fun hsure => hvalue ▸ (h.sure hsure).later hm.evolves, v :: vs, rest, ?_, ?_⟩
  · rw [hstack, hsplit]
    rfl
  · rw [hvalue]
    exact .cons hv (hvs.imp fun _ _ hw => hw.keeps hm)

/-- Nothing has to be known of the stack. -/
theorem forget (h : o.Fits slot a m) (hlater : m.Precedes m') (hlocals : b.locals = a.locals) :
    o.forget.Fits slot b m' := by
  have hvalue : b.valueAt slot = a.valueAt slot := congrArg (·.getD slot .top) hlocals
  exact ⟨fun hsure => hvalue ▸ (h.sure hsure).later hlater.objects, [], b.stack, rfl, .nil⟩

end Outline.Fits

/-! ## Natives -/

namespace Native

open Machine

variable {m : Machine} {own : Value} {sure sure' : Bool} {contents : List Content}
  {arguments : List Value} {result : Option Content}

/-- What is known of a result. -/
def Delivers (m : Machine) (own : Value) (sure : Bool) (result : Option Content)
    (v : Option Value) : Prop :=
  (sure = true → m.IsContinuation own) ∧
    List.Forall₂ (Content.Holds m own) result.toList v.toList

/-- A native that looks at a continuation has one. -/
theorem isContinuation_of_ok {x : Ref × Continuation Ref → Run α} {v : Value} {r : α}
    {m' : Machine} (h : (Run.continuationAt v >>= x) m = .ok r m') :
    ∃ ref c, v = .ref ref ∧ m.object? ref = some (.continuation c) ∧ x (ref, c) m = .ok r m' := by
  cases v with
  | ref ref =>
    cases ho : m.object? ref with
    | none =>
      simp only [Run.continuationAt, Run.referred, Run.object, bind, EStateM.bind, pure,
        EStateM.pure, get, getThe, MonadStateOf.get, EStateM.get, ho] at h
      cases h
    | some o =>
      cases o with
      | continuation c =>
        simp only [bind, EStateM.bind, Run.continuationAt_of_some ho] at h
        exact ⟨ref, c, rfl, ho, h⟩
      | _ =>
        simp only [Run.continuationAt, Run.referred, bind, EStateM.bind, pure,
          EStateM.pure, Run.object_of_some ho] at h
        cases h
  | null => cases h
  | _ => cases h

/-- The machine goes on as it was, and gives a result. -/
theorem Delivers.of_keeps {m' : Machine} (hm : m.Retains m')
    (hsure : sure = true → m.IsContinuation own) {v : Option Value}
    (hv : List.Forall₂ (Content.Holds m' own) result.toList v.toList) :
    Delivers m' own sure result v :=
  ⟨fun h => (hsure h).later hm.evolves, hv⟩

/-- **Natives that a frame is saved with** always do their work. -/
theorem run_saves {native : Native} (h : native.outline? sure contents = some (sure', result))
    (hsaves : native.saves = true)
    (harguments : List.Forall₂ (Content.Holds m own) contents arguments)
    (hsure : sure = true → m.IsContinuation own) :
    ∃ v m', native.run arguments m = .ok v m' ∧ m.Retains m' ∧ Delivers m' own sure' result v ∧
      m'.pool = native.counts m.pool := by
  -- these natives allocate, push or count, and none of that takes anything away
  have hkeeps : ∀ o, m.Retains (m.alloc o).2 := fun o => .adds (.alloc m o)
  have hcounted : ∀ {m' : Machine} (pool : FramePool), pool.rollbacks = m'.pool.rollbacks →
      m'.Retains { m' with pool } := fun pool hpool => .adds (.aside _ _ hpool)
  unfold outline? at h
  split at h
  · cases hsaves
  · cases hsaves
  · -- an array of the length that was pushed
    rename_i element n
    obtain ⟨hn, h⟩ := Option.ite_none_right_eq_some.mp h
    cases h
    rcases harguments with _ | ⟨rfl, _ | _⟩
    have hallocate := Run.allocateArray_of_nonneg (Int32.not_lt.mpr hn)
      (RefType.element?_array element)
    generalize ho : HeapObject.array (.array element)
      (Array.replicate n.toInt.toNat (Value.zero element)) = o at hallocate
    have hrun : Native.run [.int n] (.allocate element) m =
        .ok (some (.ref (m.alloc o).1))
          { (m.alloc o).2 with pool := { m.pool with pending := m.pool.pending + 1 } } := by
      simp only [Native.run, Run.intArgument, Run.argument, bind, EStateM.bind,
        List.getElem?_cons_zero, pure, EStateM.pure, hallocate]
      rfl
    have hkept := (hkeeps o).trans (hcounted { m.pool with pending := m.pool.pending + 1 } rfl)
    have hself := Machine.object?_alloc_self m o
    exact ⟨_, _, hrun, hkept, .of_keeps hkept hsure
      (.cons ⟨_, _, _, rfl, hself.trans (congrArg some ho.symm), Array.size_replicate⟩ .nil), rfl⟩
  · cases h
    rcases harguments with _ | ⟨-, _ | ⟨-, _ | ⟨-, _ | ⟨-, _ | ⟨-, _ | _⟩⟩⟩⟩⟩
    exact ⟨_, _, rfl, hkeeps _, .of_keeps (hkeeps _) hsure (.cons trivial .nil), rfl⟩
  · cases h
    rcases harguments with _ | ⟨⟨r, s, rfl, ho⟩, _ | ⟨rfl, _ | ⟨rfl, _ | ⟨rfl, hobjects⟩⟩⟩⟩
    rcases hobjects with _ | ⟨-, _ | ⟨-, _ | ⟨-, _ | _⟩⟩⟩
    exact ⟨_, _, run_createState ho .., hkeeps _,
      .of_keeps (hkeeps _) hsure (.cons ⟨_, rfl⟩ .nil), rfl⟩
  · obtain ⟨hsure', h⟩ := Option.ite_none_right_eq_some.mp h
    cases h
    obtain ⟨r, c, rfl, hc⟩ := hsure hsure'
    rcases harguments with _ | ⟨rfl, _ | ⟨⟨state, rfl⟩, _ | _⟩⟩
    have hkept : m.Retains (m.put _ (.continuation (c.push state))) := .putContinuation hc
    exact ⟨_, _, run_push hc state, hkept, .of_keeps hkept (fun _ => ⟨r, c, rfl, hc⟩) .nil, rfl⟩
  · cases h
    cases harguments
    have hkept := hcounted { m.pool with pending := 0, commits := m.pool.commits + 1 } rfl
    exact ⟨_, _, rfl, hkept, .of_keeps hkept hsure .nil, rfl⟩
  · cases h

/-- **What is known after a native.** -/
theorem run_outlined {native : Native} (h : native.outline? sure contents = some (sure', result))
    (harguments : List.Forall₂ (Content.Holds m own) contents arguments)
    (hsure : sure = true → m.IsContinuation own) {v : Option Value} {m' : Machine}
    (hrun : native.run arguments m = .ok v m') :
    m.Retains m' ∧ Delivers m' own sure' result v := by
  by_cases hsaves : native.saves = true
  · obtain ⟨v', m'', hrun', hkeeps, hdelivers, -⟩ := run_saves h hsaves harguments hsure
    cases hrun.symm.trans hrun'
    exact ⟨hkeeps, hdelivers⟩
  · unfold outline? at h
    split at h
    · cases h
      rcases harguments with _ | ⟨rfl, _ | _⟩
      obtain ⟨r, c, rfl, hc, hrun⟩ := isContinuation_of_ok hrun
      cases hrun
      exact ⟨.refl m, fun _ => ⟨r, c, rfl, hc⟩, .cons trivial .nil⟩
    · cases h
      rcases harguments with _ | ⟨rfl, _ | ⟨-, _ | _⟩⟩
      rename_i w
      cases w with
      | int n =>
        simp only [Native.run, Run.intArgument, Run.argument, List.getElem?_cons_zero,
          List.getElem?_cons_succ, pure_bind] at hrun
        cases hmode : Mode.ofInt32 n with
        | error e =>
          rw [hmode] at hrun
          cases hrun
        | ok mode =>
          rw [hmode, Run.liftContinuation, pure_bind] at hrun
          obtain ⟨r, c, rfl, hc, hrun⟩ := isContinuation_of_ok hrun
          cases hrun
          have hkept : m.Retains (m.put _ (.continuation { c with mode })) := .putContinuation hc
          exact ⟨hkept, .of_keeps hkept (fun _ => ⟨r, c, rfl, hc⟩) .nil⟩
      | _ => cases hrun
    · exact absurd rfl hsaves
    · exact absurd rfl hsaves
    · exact absurd rfl hsaves
    · exact absurd rfl hsaves
    · exact absurd rfl hsaves
    · cases h

end Native

/-! ## Steps -/

namespace Instruction

/-- What an instruction makes of the counts of an allocator, if it saves. -/
def counts (N : List (MethodRef × Native)) (p : FramePool) (i : Instruction) : FramePool :=
  ((i.native? N).map fun native => native.counts p).getD p

/-- Only natives change the counts of allocators. -/
theorem counts_of_no_native {N : List (MethodRef × Native)} {p : FramePool} {i : Instruction}
    (h : i.native? N = none) : i.counts N p = p := by
  rw [counts, h]
  rfl

end Instruction

namespace Step

/-- If the computation ends, the locals are what they were. -/
def KeepsLocals (x : Step α) : Prop := ∀ a m r b m', x a m = .ok (r, b) m' → b.locals = a.locals

namespace KeepsLocals

/-- A value keeps the variables. -/
theorem pure (r : α) : KeepsLocals (Pure.pure r : Step α) := by
  intro a m r' b m' h
  cases h
  rfl

/-- One computation after the other keeps the variables if both do. -/
theorem bind {x : Step α} {f : α → Step β} (hx : KeepsLocals x) (hf : ∀ r, KeepsLocals (f r)) :
    KeepsLocals (x >>= f) := by
  intro a m r c m' h
  simp only [Bind.bind, StateT.bind, EStateM.bind] at h
  split at h
  · rename_i result m₁ hxm
    exact (hf _ _ _ _ _ _ h).trans (hx _ _ _ _ _ hxm)
  · cases h

/-- Nothing on the machine touches the variables. -/
theorem lift (y : Run α) : KeepsLocals (StateT.lift y : Step α) := by
  intro a m r b m' h
  simp only [StateT.lift, Bind.bind, EStateM.bind] at h
  split at h
  · cases h
    rfl
  · cases h

theorem fault (f : CodeFault) : KeepsLocals (Step.fault f : Step α) := by
  intro a m r b m' h
  cases h

theorem push (v : Value) : KeepsLocals (Step.push v) := by
  intro a m r b m' h
  cases h
  rfl

theorem pop : KeepsLocals Step.pop := by
  intro a m r b m' h
  obtain ⟨method, locals, stack, index⟩ := a
  cases stack with
  | nil => cases h
  | cons v rest =>
    cases h
    rfl

theorem popInt : KeepsLocals Step.popInt := by
  refine bind pop fun v => ?_
  cases v with
  | int n => exact pure n
  | _ => exact fault _

theorem popWords (words : Nat) : KeepsLocals (Step.popWords words) := by
  induction words using Step.popWords.induct with
  | case1 => exact pure _
  | case2 =>
    refine bind pop fun v => ?_
    split
    · exact pure _
    · exact fault _
  | case3 words ih ih' =>
    refine bind pop fun v => ?_
    split
    · exact bind ih fun _ => pure _
    · exact bind ih' fun _ => pure _

theorem discard {x : Step α} (hx : KeepsLocals x) : KeepsLocals (Functor.discard x) := by
  rw [discard_eq_bind]
  exact bind hx fun _ => pure _

theorem andNext {x : Step Unit} (hx : KeepsLocals x) : KeepsLocals (Step.andNext x) :=
  bind hx fun _ => pure _

end KeepsLocals

variable {run : MethodRunner} {N : List (MethodRef × Native)} {slot : Nat} {o o' : Outline}
  {i : Instruction} {a b : Activation} {m m' : Machine}

/-- A call keeps the variables of its caller. -/
theorem KeepsLocals.invoke (callees : Callees) (kind : CallKind) (ref : MethodRef) :
    KeepsLocals (execute callees (.invoke kind ref)) := by
  intro a m r b m' h
  by_cases henough : ref.argumentCount kind ≤ a.stack.length
  · rw [execute_invoke_eq rfl henough] at h
    split at h
    · cases h
      rfl
    · cases h
  · rw [execute_invoke_missing rfl (Nat.not_le.mp henough)] at h
    cases h

/-- The arguments of a call that are known. -/
theorem arguments_known (ha : o.Fits slot a m) {count : Nat} (hcount : count ≤ o.top.length) :
    count ≤ a.stack.length ∧
      List.Forall₂ (Content.Holds m (a.valueAt slot)) (o.top.take count).reverse
        (a.stack.take count).reverse ∧
      ∃ vs rest, a.stack.drop count = vs ++ rest ∧
        List.Forall₂ (Content.Holds m (a.valueAt slot)) (o.top.drop count) vs := by
  obtain ⟨vs, rest, hstack, hvs⟩ := ha.top
  have hlength : count ≤ vs.length := hvs.length_eq ▸ hcount
  refine ⟨by rw [hstack, List.length_append]; omega, ?_, vs.drop count, rest, ?_, ?_⟩
  · rw [hstack, List.take_append_of_le_length hlength]
    exact List.forall₂_reverse_iff.mpr (List.forall₂_take count hvs)
  · rw [hstack, List.drop_append_of_le_length hlength]
  · exact List.forall₂_drop count hvs

/-- Storing into an array at a position that it has. -/
theorem execute_arrayStore {callees : Callees} {element : ElementKind} {v : Value} {n : Int32}
    {r : Ref} {type : RefType} {values : Array Value} {rest : List Value}
    (hstack : a.stack = v :: .int n :: .ref r :: rest)
    (ho : m.object? r = some (.array type values)) (hn : 0 ≤ n ∧ n.toInt < values.size) :
    execute callees (.arrayStore element) a m = .ok (.next, { a with stack := rest })
      (m.put r (.array type (values.setIfInBounds n.toInt.toNat (narrowed element v)))) := by
  have hposition : Run.position n values.size m = .ok n.toInt.toNat m := by
    simp only [Run.position, hn.1, hn.2, decide_true, Bool.and_self, if_true, pure, EStateM.pure]
  have hset : Run.setArrayElement (some r) n (narrowed element v) m = .ok ()
      (m.put r (.array type (values.setIfInBounds n.toInt.toNat (narrowed element v)))) := by
    simp only [Run.setArrayElement, Run.nonNull, Run.elements, bind, EStateM.bind, pure,
      EStateM.pure, Run.object_of_some ho, hposition, Run.setObject_eq]
  obtain ⟨method, locals, stack, index⟩ := a
  cases hstack
  simp only [execute, andNext, arrayStore, popInt, popRef, pop, bind, StateT.bind, get, getThe,
    MonadStateOf.get, StateT.get, EStateM.bind, EStateM.pure, pure, StateT.pure, set,
    MonadStateOf.set, StateT.set, liftM, monadLift, MonadLift.monadLift, StateT.lift, hset]

/-- What is known after a call of a native that is known. -/
theorem fits_called {count : Nat} {sure : Bool} {result : Option Content}
    {v : Option Value} (ha : o.Fits slot a m) (hcount : count ≤ o.top.length) (hkeeps : m.Retains m')
    (hdelivers : Native.Delivers m' (a.valueAt slot) sure result v) :
    Outline.Fits slot ⟨sure, result.toList ++ o.top.drop count⟩
      { a with stack := v.toList ++ a.stack.drop count } m' := by
  obtain ⟨-, -, vs, rest, hdrop, hvs⟩ := arguments_known ha hcount
  refine ⟨hdelivers.1, v.toList ++ vs, rest, ?_, ?_⟩
  · rw [hdrop, List.append_assoc]
  · exact List.rel_append hdelivers.2 (hvs.imp fun _ _ hw => hw.keeps hkeeps)

/-- **Instructions that a frame is saved with** go on to the next one, unless a variable holds
nothing. -/
theorem execute_saves (run : MethodRunner) (hN : m.natives = N) (hm : m.Literate)
    (h : o.after? N slot i = some o') (ha : o.Fits slot a m) (hsaves : i.saves N = true) :
    (∃ b m', execute (Run.callees run) i a m = .ok (.next, b) m' ∧ o'.Fits slot b m' ∧
      m'.pool = i.counts N m.pool) ∨
    ∃ kind other, i = .load kind other ∧ a.valueAt other = .top ∧
      execute (Run.callees run) i a m =
        .error (.failure (.badCode a.method a.index (.uninitializedLocal other))) m := by
  cases i with
  | load kind other =>
    cases h
    -- the one instruction of a save sequence that can fail
    by_cases hv : a.valueAt other = .top
    · have hv' : a.locals.getD other .top = .top := hv
      refine .inr ⟨kind, other, rfl, hv, ?_⟩
      simp only [execute, andNext, load, bind, StateT.bind, get, getThe, MonadStateOf.get,
        StateT.get, EStateM.bind, EStateM.pure, pure, hv']
      rfl
    · refine .inl ⟨_, _, execute_load _ a m rfl hv, ha.push (.refl m) ?_ rfl rfl, rfl⟩
      split
      · rename_i hother
        exact congrArg a.valueAt hother
      · trivial
  | pushNull =>
    cases h
    exact .inl ⟨_, _, rfl, ha.push (.refl m) trivial rfl rfl, rfl⟩
  | pushInt n =>
    cases h
    exact .inl ⟨_, _, rfl, ha.push (.refl m) rfl rfl rfl, rfl⟩
  | pushConstant c =>
    cases c with
    | string s =>
      cases h
      have hpool : (m.intern s).2.pool = m.pool := (Run.Mild.intern s).pool m
      have hfits := ha.push (b := { a with stack := .ref (m.intern s).1 :: a.stack })
        (.adds (.intern m s)) (c := .text) ⟨_, s, rfl, (hm.intern s).2⟩ rfl rfl
      exact .inl ⟨_, _, rfl, hfits, hpool.trans (Instruction.counts_of_no_native rfl).symm⟩
    | _ => cases h
  | stack op =>
    cases op with
    | dup =>
      obtain ⟨vs, rest, hstack, hvs⟩ := id ha.top
      obtain ⟨length, top, htop, rfl⟩ := Outline.of_after?_dup h
      rw [htop] at hvs
      rcases hvs with _ | ⟨⟨r, type, values, rfl, ho, hsize⟩, -⟩
      have hexec : execute (Run.callees run) (.stack .dup) a m =
          .ok (.next, { a with stack := .ref r :: a.stack }) m := by
        obtain ⟨method, locals, stack, index⟩ := a
        cases hstack
        rfl
      have hfits := ha.push (b := { a with stack := .ref r :: a.stack }) (.refl m)
        (c := .array length) ⟨r, type, values, rfl, ho, hsize⟩ rfl rfl
      exact .inl ⟨_, m, hexec, hfits, (Instruction.counts_of_no_native rfl).symm⟩
    | _ => cases hsaves
  | arrayStore element =>
    obtain ⟨vs, rest, hstack, hvs⟩ := id ha.top
    obtain ⟨c, n, length, top, htop, hn, rfl⟩ := Outline.of_after?_arrayStore h
    rw [htop] at hvs
    obtain ⟨v, _, -, hvs₁, rfl⟩ := List.forall₂_cons_left_iff.mp hvs
    obtain ⟨_, _, rfl, hvs₂, rfl⟩ := List.forall₂_cons_left_iff.mp hvs₁
    obtain ⟨_, vs', ⟨r, type, values, rfl, ho, rfl⟩, hvs', rfl⟩ :=
      List.forall₂_cons_left_iff.mp hvs₂
    have hkept : m.Retains (m.put r (.array type (values.setIfInBounds n.toInt.toNat
        (narrowed element v)))) :=
      .put ho (.array _ _ _) fun type' values' he => by
        cases he
        exact ⟨_, rfl, Array.size_setIfInBounds⟩
    have hfits : Outline.Fits slot { o with top } { a with stack := vs' ++ rest } _ :=
      ⟨fun hsure => (ha.sure hsure).later hkept.evolves, vs', rest, rfl,
        hvs'.imp fun _ _ hw => hw.keeps hkept⟩
    exact .inl ⟨_, _, execute_arrayStore hstack ho hn, hfits,
      (Instruction.counts_of_no_native rfl).symm⟩
  | invoke kind ref =>
    obtain ⟨native, hnative, h⟩ := Option.bind_eq_some_iff.mp h
    have hsaves : (N.lookup ref).any Native.saves = true := hsaves
    rw [hnative, Option.any_some] at hsaves
    rcases Outline.of_call? h with ⟨rfl, -⟩ | ⟨hcount, sure, result, houtline, rfl⟩
    · cases hsaves
    obtain ⟨henough, harguments, -⟩ := arguments_known ha hcount
    obtain ⟨v, m', hrun, hkeeps, hdelivers, hpool⟩ :=
      native.run_saves houtline hsaves harguments ha.sure
    have hcall : Run.call run kind ref (a.stack.take (ref.argumentCount kind)).reverse m =
        .ok v m' := (call_native (hN ▸ hnative)).trans hrun
    have hexec := execute_invoke a m rfl henough hcall
    refine .inl ⟨_, _, hexec, fits_called ha hcount hkeeps hdelivers, ?_⟩
    simp only [Instruction.counts, Instruction.native?, hnative, Option.map_some, Option.getD_some,
      hpool]
  | _ => cases hsaves

/-- **What is known after a step.** -/
theorem execute_outlined (hN : m.natives = N) (hm : m.Literate) (h : o.after? N slot i = some o')
    (ha : o.Fits slot a m)
    (hlater : m.Precedes m')
    (hexec : execute (Run.callees run) i a m = .ok (.next, b) m') : o'.Fits slot b m' := by
  by_cases hsaves : i.saves N = true
  · rcases execute_saves run hN hm h ha hsaves with
      ⟨b', m'', hexec', hfits, -⟩ | ⟨kind, other, -, -, hexec'⟩
    · cases hexec.symm.trans hexec'
      exact hfits
    · cases hexec.symm.trans hexec'
  · have hforget : ∀ {x : Step Progress}, KeepsLocals x → x = execute (Run.callees run) i →
        o.forget.Fits slot b m' := fun hx he =>
      ha.forget hlater (hx _ _ _ _ _ (he ▸ hexec))
    cases i with
    | stack op =>
      cases op with
      | dup => exact absurd rfl hsaves
      | pop =>
        cases h
        exact hforget (.andNext (.discard (.popWords 1))) rfl
      | pop2 =>
        cases h
        exact hforget (.andNext (.discard (.popWords 2))) rfl
      | _ => cases h
    | getStatic field =>
      cases h
      exact hforget (.andNext (.bind (.lift _) fun _ => .bind (.lift _) fun _ => .push _)) rfl
    | ifInt comparison target =>
      cases h
      exact hforget (.bind .popInt fun _ => .bind .popInt fun _ => .pure _) rfl
    | invoke kind ref =>
      obtain ⟨native, hnative, h⟩ := Option.bind_eq_some_iff.mp h
      have hcall : ∀ arguments, Run.call run kind ref arguments m = native.run arguments m :=
        fun _ => call_native (hN ▸ hnative : m.natives.lookup ref = some native)
      rcases Outline.of_call? h with ⟨-, rfl⟩ | ⟨hcount, sure, result, houtline, rfl⟩
      · exact hforget (.invoke _ kind ref) rfl
      · obtain ⟨henough, harguments, -⟩ := arguments_known ha hcount
        rw [execute_invoke_eq rfl henough] at hexec
        simp only [Run.callees, ← MethodRef.argumentCount.eq_1, hcall] at hexec
        split at hexec
        · rename_i v m'' hrun
          cases hexec
          obtain ⟨hkeeps, hdelivers⟩ := native.run_outlined houtline harguments ha.sure hrun
          exact fits_called ha hcount hkeeps hdelivers
        · cases hexec
    | load _ _ | pushNull | pushInt _ | arrayStore _ => exact absurd rfl hsaves
    | pushConstant c =>
      cases c with
      | string s => exact absurd rfl hsaves
      | _ => cases h
    | _ => cases h

end Step

end Resumption
