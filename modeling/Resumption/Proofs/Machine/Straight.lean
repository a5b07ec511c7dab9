import Mathlib
import Resumption.Machine.Interpreter

/-!
# Straight-line execution

Generated code is long runs of instructions without a jump, joined by a few jumps. This file gives
the vocabulary for both:

* **`Activation.valueAt`** is the one view of the locals that later files use; `valueAt_store` says
  what a store does to it, so nobody looks into the array again.
* **`Body.straight`** executes a list of instructions that all go on to the next one.
* **`Body.Reaches`** is a finite number of steps of one activation; a straight run of the
  instructions that stand at its index is one (`Reaches.of_straight`).
* **`Reaches.runFor_eq`** turns it into a fact about `runFor`.
-/

namespace Resumption

/-- A computation whose result is dropped is one with nothing behind it. -/
theorem discard_eq_bind {m : Type → Type} [Monad m] [LawfulMonad m] {α : Type} (x : m α) :
    Functor.discard x = x >>= fun _ => Pure.pure PUnit.unit := by
  rw [← map_eq_pure_bind, Functor.discard, LawfulFunctor.map_const]
  rfl

/-! ## Locals -/

namespace Activation

/-- The value of a local; one beyond the end holds nothing. -/
def valueAt (a : Activation) (slot : Nat) : Value := a.locals.getD slot .top

/-- The activation some instructions further on, with another stack. -/
def moved (a : Activation) (stack : List Value) (count : Nat) : Activation :=
  { a with stack, index := a.index + count }

@[simp] theorem moved_stack (a : Activation) (s : List Value) (n : Nat) :
    (a.moved s n).stack = s := rfl

@[simp] theorem moved_index (a : Activation) (s : List Value) (n : Nat) :
    (a.moved s n).index = a.index + n := rfl

@[simp] theorem moved_method (a : Activation) (s : List Value) (n : Nat) :
    (a.moved s n).method = a.method := rfl

@[simp] theorem moved_valueAt (a : Activation) (s : List Value) (n slot : Nat) :
    (a.moved s n).valueAt slot = a.valueAt slot := rfl

@[simp] theorem moved_moved (a : Activation) (s t : List Value) (n k : Nat) :
    (a.moved s n).moved t k = a.moved t (n + k) := by
  simp only [moved, Nat.add_assoc]

@[simp] theorem store_moved (a : Activation) (s : List Value) (n slot : Nat) (v : Value) :
    (a.moved s n).store slot v = (a.store slot v).moved s n := rfl

@[simp] theorem store_index (a : Activation) (slot : Nat) (v : Value) :
    (a.store slot v).index = a.index := rfl

@[simp] theorem store_stack (a : Activation) (slot : Nat) (v : Value) :
    (a.store slot v).stack = a.stack := rfl

@[simp] theorem store_method (a : Activation) (slot : Nat) (v : Value) :
    (a.store slot v).method = a.method := rfl

theorem getD_setIfInBounds {α : Type} {xs : Array α} {i j : Nat} {v d : α} :
    (xs.setIfInBounds i v).getD j d = if i = j ∧ i < xs.size then v else xs.getD j d := by
  simp only [Array.getD_eq_getD_getElem?, Array.getElem?_setIfInBounds]
  by_cases hij : i = j
  · subst hij
    by_cases hi : i < xs.size
    · simp [hi]
    · simp [hi]
  · simp [hij]

theorem getD_append_replicate (xs : Array Value) (n i : Nat) :
    (xs ++ Array.replicate n Value.top).getD i .top = xs.getD i .top := by
  simp only [Array.getD_eq_getD_getElem?, Array.getElem?_append, Array.getElem?_replicate]
  by_cases hi : i < xs.size
  · simp [hi]
  · simp only [hi, if_false, Array.getElem?_eq_none (Nat.not_lt.mp hi)]
    split <;> rfl

theorem width_eq_one_or_two (v : Value) : v.width = 1 ∨ v.width = 2 := by
  cases v <;> simp [Value.width]

/-- What a store does to the locals: the slot holds the value, the second half of a wide value holds
nothing, and a wide value just below loses its second half and with it everything. -/
theorem valueAt_store (a : Activation) (slot : Nat) (v : Value) (i : Nat) :
    (a.store slot v).valueAt i =
      if i = slot then v
      else if v.width = 2 ∧ i = slot + 1 then .top
      else if i + 1 = slot ∧ (a.valueAt i).width = 2 then .top
      else a.valueAt i := by
  -- `grown` is long enough for the value; `cut` is without the wide value below.
  have hgrown : slot + v.width ≤
      (a.locals ++ Array.replicate (slot + v.width - a.locals.size) Value.top).size := by
    simp only [Array.size_append, Array.size_replicate]
    omega
  have hview : ∀ j, (a.locals ++ Array.replicate (slot + v.width - a.locals.size)
      Value.top).getD j .top = a.valueAt j := fun j => getD_append_replicate _ _ _
  have hwidth := width_eq_one_or_two v
  generalize hg : a.locals ++ Array.replicate (slot + v.width - a.locals.size) Value.top = grown
    at hgrown hview
  simp only [store, valueAt, hg]
  have hcut : ∀ j, (if (decide (0 < slot) && decide ((grown.getD (slot - 1) Value.top).width = 2))
      = true then grown.setIfInBounds (slot - 1) Value.top else grown).getD j .top =
      if j + 1 = slot ∧ (a.valueAt j).width = 2 then .top else a.valueAt j := by
    intro j
    rw [hview]
    by_cases hpos : 0 < slot
    · by_cases hw : (a.valueAt (slot - 1)).width = 2
      · simp only [hpos, hw, decide_true, Bool.and_self, if_true, getD_setIfInBounds, hview]
        by_cases hj : slot - 1 = j
        · subst hj
          simp [hw, Nat.sub_add_cancel hpos, show slot - 1 < grown.size by omega]
        · simp [hj, show ¬ j + 1 = slot by omega]
      · simp only [hpos, hw, decide_true, decide_false, Bool.and_false, Bool.false_eq_true,
          if_false, hview]
        by_cases hj : j + 1 = slot
        · have : j = slot - 1 := by omega
          subst this
          simp [hw]
        · simp [hj]
    · simp [hpos, hview, show ¬ j + 1 = slot by omega]
  have hsize : (if (decide (0 < slot) && decide ((grown.getD (slot - 1) Value.top).width = 2))
      = true then grown.setIfInBounds (slot - 1) Value.top else grown).size = grown.size := by
    split <;> simp
  generalize (if (decide (0 < slot) && decide ((grown.getD (slot - 1) Value.top).width = 2))
      = true then grown.setIfInBounds (slot - 1) Value.top else grown) = cut at hcut hsize
  by_cases hv : v.width = 2
  · simp only [hv, if_true, getD_setIfInBounds, hcut, Array.size_setIfInBounds, hsize, true_and]
    by_cases h1 : i = slot
    · subst h1
      simp [show i < grown.size by omega]
    · by_cases h2 : i = slot + 1
      · subst h2
        simp [show slot + 1 < grown.size by omega]
      · simp [h1, h2, Ne.symm h1, show ¬ slot + 1 = i by omega, valueAt]
  · simp only [hv, if_false, getD_setIfInBounds, hcut, hsize, false_and]
    by_cases h1 : i = slot
    · subst h1
      simp [show i < grown.size by omega]
    · simp [h1, Ne.symm h1, valueAt]

theorem valueAt_store_self (a : Activation) (slot : Nat) (v : Value) :
    (a.store slot v).valueAt slot = v := by
  rw [valueAt_store, if_pos rfl]

/-- Slots away from a store keep their value. -/
theorem valueAt_store_of_ne {a : Activation} {slot i : Nat} {v : Value} (hne : i ≠ slot)
    (habove : v.width = 2 → i ≠ slot + 1) (hbelow : i + 1 = slot → (a.valueAt i).width = 1) :
    (a.store slot v).valueAt i = a.valueAt i := by
  rw [valueAt_store, if_neg hne, if_neg (fun h => habove h.1 h.2), if_neg]
  rintro ⟨h1, h2⟩
  rw [hbelow h1] at h2
  cases h2

end Activation

/-! ## Single instructions -/

namespace Step

variable (callees : Callees) (a : Activation) (m : Machine)

theorem execute_load {kind : ValueKind} {slot : Nat} {v : Value} (h : a.valueAt slot = v)
    (hv : v ≠ .top) :
    execute callees (.load kind slot) a m = .ok (.next, { a with stack := v :: a.stack }) m := by
  have h' : a.locals.getD slot .top = v := h
  cases v with
  | top => exact absurd rfl hv
  | _ =>
    simp [execute, andNext, load, push, h', bind, StateT.bind, get, getThe, MonadStateOf.get,
      StateT.get, pure, StateT.pure, EStateM.bind, EStateM.pure, modify, modifyGet,
      MonadStateOf.modifyGet, StateT.modifyGet]

theorem execute_store {kind : ValueKind} {slot : Nat} {v : Value} {rest : List Value}
    (h : a.stack = v :: rest) :
    execute callees (.store kind slot) a m =
      .ok (.next, ({ a with stack := rest } : Activation).store slot v) m := by
  cases a
  cases h
  rfl

theorem execute_increment {slot : Nat} {n : Int32} {delta : Int16}
    (h : a.valueAt slot = .int n) :
    execute callees (.increment slot delta) a m =
      .ok (.next, a.store slot (.int (n + delta.toInt32))) m := by
  have h' : a.locals.getD slot .top = .int n := h
  simp [execute, andNext, increment, load, store, h', bind, StateT.bind, get, getThe,
    MonadStateOf.get, StateT.get, pure, StateT.pure, EStateM.bind, EStateM.pure, modify, modifyGet,
    MonadStateOf.modifyGet, StateT.modifyGet]

theorem popArguments_eq {count : Nat} (h : count ≤ a.stack.length) :
    popArguments count a m =
      .ok ((a.stack.take count).reverse, { a with stack := a.stack.drop count }) m := by
  have hnot : ¬ a.stack.length < count := Nat.not_lt.mpr h
  simp only [popArguments, bind, StateT.bind, get, getThe, MonadStateOf.get, StateT.get, pure,
    EStateM.bind, EStateM.pure, set, MonadStateOf.set]
  rw [if_neg hnot]
  rfl

/-- What a call comes to when its arguments are there. -/
theorem execute_invoke_eq {callees : Callees} {a : Activation} {m : Machine}
    {kind : CallKind} {ref : MethodRef} {count : Nat}
    (hcount : count = ref.descriptor.parameters.length + if kind = .static then 0 else 1)
    (henough : count ≤ a.stack.length) :
    execute callees (.invoke kind ref) a m =
      match callees.call kind ref (a.stack.take count).reverse m with
      | .ok result m' => .ok (.next, { a with stack := result.toList ++ a.stack.drop count }) m'
      | .error e m' => .error e m' := by
  simp only [execute, andNext, bind, StateT.bind, pure, StateT.pure, EStateM.bind, EStateM.pure,
    ← hcount, popArguments_eq a m henough, liftM, monadLift, MonadLift.monadLift, StateT.lift]
  cases callees.call kind ref (a.stack.take count).reverse m with
  | ok result m' => cases result <;> rfl
  | error e m' => rfl

/-- A call whose arguments are not there is a fault. -/
theorem execute_invoke_missing {callees : Callees} {a : Activation} {m : Machine} {kind : CallKind}
    {ref : MethodRef} {count : Nat}
    (hcount : count = ref.descriptor.parameters.length + if kind = .static then 0 else 1)
    (hfew : a.stack.length < count) :
    execute callees (.invoke kind ref) a m =
      .error (.failure (.badCode a.method a.index .missingArguments)) m := by
  simp only [execute, andNext, bind, StateT.bind, pure, StateT.pure, EStateM.bind, EStateM.pure,
    ← hcount, popArguments, get, getThe, MonadStateOf.get, StateT.get, if_pos hfew]
  rfl

theorem call_native {run : MethodRunner} {m : Machine} {kind : CallKind} {ref : MethodRef}
    {native : Native} {arguments : List Value} (h : m.natives.lookup ref = some native) :
    Run.call run kind ref arguments m = native.run arguments m := by
  simp only [Run.call, bind, EStateM.bind, get, getThe, MonadStateOf.get, EStateM.get, h]

/-- A call that returns. -/
theorem execute_invoke {run : MethodRunner} {kind : CallKind} {ref : MethodRef} {count : Nat}
    {result : Option Value} {m' : Machine}
    (hcount : count = ref.descriptor.parameters.length + if kind = .static then 0 else 1)
    (henough : count ≤ a.stack.length)
    (hcall : Run.call run kind ref (a.stack.take count).reverse m = .ok result m') :
    execute (Run.callees run) (.invoke kind ref) a m =
      .ok (.next, { a with stack := result.toList ++ a.stack.drop count }) m' := by
  simp only [execute_invoke_eq hcount henough, Run.callees, hcall]

/-- A call that finds a native is the native. -/
theorem execute_invoke_native {run : MethodRunner} {kind : CallKind} {ref : MethodRef}
    {native : Native} {arguments rest : List Value} {result : Option Value} {m' : Machine}
    (hfound : m.natives.lookup ref = some native) (hstack : a.stack = arguments.reverse ++ rest)
    (hcount : arguments.length =
      ref.descriptor.parameters.length + if kind = .static then 0 else 1)
    (hrun : native.run arguments m = .ok result m') :
    execute (Run.callees run) (.invoke kind ref) a m =
      .ok (.next, { a with stack := result.toList ++ rest }) m' := by
  have htake : a.stack.take arguments.length = arguments.reverse := by simp [hstack]
  have hdrop : a.stack.drop arguments.length = rest := by simp [hstack]
  have hcall : Run.call run kind ref (a.stack.take arguments.length).reverse m = .ok result m' := by
    simp only [Run.call, bind, EStateM.bind, get, getThe, MonadStateOf.get, EStateM.get, hfound,
      htake, List.reverse_reverse, hrun]
  rw [execute_invoke a m hcount (by simp [hstack]) hcall, hdrop]

end Step

/-! ## Straight runs -/

namespace Body

/-- Executes instructions one after the other, all of which have to go on to the next one. -/
def straight (callees : Callees) : List Instruction → Activation → Run Activation
  | [], a => return a
  | i :: rest, a => do
    match ← Step.execute callees i a with
    | (.next, b) => straight callees rest (b.moved b.stack 1)
    | _ => Run.fail (.badCode a.method a.index .ranOff)

variable {callees : Callees} {body : Body} {a b c : Activation} {m m' m'' : Machine}

@[simp] theorem straight_nil : straight callees [] a m = .ok a m := rfl

/-- An instruction that goes on to the next one leaves the rest to do. -/
theorem straight_cons {i : Instruction} {rest : List Instruction}
    (h : Step.execute callees i a m = .ok (.next, b) m') :
    straight callees (i :: rest) a m = straight callees rest (b.moved b.stack 1) m' := by
  simp only [straight, bind, EStateM.bind, h]

/-- What a straight run of a nonempty list begins with. -/
theorem straight_cons_inv {i : Instruction} {rest : List Instruction}
    (h : straight callees (i :: rest) a m = .ok c m'') :
    ∃ b m', Step.execute callees i a m = .ok (.next, b) m' ∧
      straight callees rest (b.moved b.stack 1) m' = .ok c m'' := by
  simp only [straight, bind, EStateM.bind] at h
  split at h
  · rename_i result m' hexec
    obtain ⟨progress, b⟩ := result
    cases progress with
    | next => exact ⟨b, m', hexec, h⟩
    | jump _ => cases h
    | done _ => cases h
  · cases h

theorem straight_append {is js : List Instruction} (h : straight callees is a m = .ok b m') :
    straight callees (is ++ js) a m = straight callees js b m' := by
  induction is generalizing a m with
  | nil =>
    rw [straight_nil] at h
    cases h
    rfl
  | cons i rest ih =>
    obtain ⟨b', m₁, hexec, hrest⟩ := straight_cons_inv h
    rw [List.cons_append, straight_cons hexec]
    exact ih hrest

/-! ## Steps of an activation -/

/-- Do the instructions stand in the body, from an index on? -/
def Has (body : Body) (index : Nat) (is : List Instruction) : Prop :=
  is <+: body.instructions.toList.drop index

theorem Has.nil (body : Body) (index : Nat) : body.Has index [] := List.nil_prefix

theorem Has.getElem? {index : Nat} {i : Instruction} {rest : List Instruction}
    (h : body.Has index (i :: rest)) : body.instructions[index]? = some i := by
  obtain ⟨tail, htail⟩ := h
  have hget := congrArg (·[0]?) htail
  simp only [List.cons_append, List.getElem?_cons_zero, List.getElem?_drop, Nat.add_zero,
    Array.getElem?_toList] at hget
  exact hget.symm

theorem Has.append_iff {index : Nat} {is js : List Instruction} :
    body.Has index (is ++ js) ↔ body.Has index is ∧ body.Has (index + is.length) js := by
  constructor
  · rintro ⟨tail, htail⟩
    refine ⟨⟨js ++ tail, by rw [← List.append_assoc]; exact htail⟩, tail, ?_⟩
    rw [← List.drop_drop, ← htail, List.append_assoc, List.drop_left]
  · rintro ⟨⟨tail, htail⟩, tail', htail'⟩
    refine ⟨tail', ?_⟩
    rw [← List.drop_drop, ← htail, List.drop_left] at htail'
    rw [List.append_assoc, htail', htail]

theorem Has.cons_iff {index : Nat} {i : Instruction} {rest : List Instruction} :
    body.Has index (i :: rest) ↔ body.instructions[index]? = some i ∧ body.Has (index + 1) rest := by
  constructor
  · intro h
    exact ⟨h.getElem?, (@append_iff body index [i] rest).mp h |>.2⟩
  · rintro ⟨hget, hrest⟩
    refine (@append_iff body index [i] rest).mpr
      ⟨⟨body.instructions.toList.drop (index + 1), ?_⟩, hrest⟩
    obtain ⟨hlt, heq⟩ := Array.getElem?_eq_some_iff.mp hget
    have hlt' : index < body.instructions.toList.length := by simpa using hlt
    rw [List.singleton_append, List.drop_eq_getElem_cons hlt', Array.getElem_toList, heq]

/-- A finite number of steps, none of which leaves the activation. -/
inductive Reaches (callees : Callees) (body : Body) :
    Activation → Machine → Activation → Machine → Prop
  /-- no step -/
  | refl (a : Activation) (m : Machine) : Reaches callees body a m a m
  /-- a step, and then the rest -/
  | step {a b c : Activation} {m m' m'' : Machine}
      (first : body.advance callees a m = .ok (.continue b) m')
      (rest : Reaches callees body b m' c m'') : Reaches callees body a m c m''

namespace Reaches

theorem trans (h : Reaches callees body a m b m') (h' : Reaches callees body b m' c m'') :
    Reaches callees body a m c m'' := by
  induction h with
  | refl => exact h'
  | step first _ ih => exact .step first (ih h')

theorem single (h : body.advance callees a m = .ok (.continue b) m') :
    Reaches callees body a m b m' := .step h (.refl _ _)

/-- Steps that were taken can be taken off the front of a run. -/
theorem runFor_eq (h : Reaches callees body a m b m') :
    ∃ n, ∀ limit steps, body.runFor callees limit (steps + n) a m =
      body.runFor callees limit steps b m' := by
  induction h with
  | refl => exact ⟨0, fun _ _ => rfl⟩
  | step first _ ih =>
    obtain ⟨n, hn⟩ := ih
    refine ⟨n + 1, fun limit steps => ?_⟩
    rw [← hn limit steps, ← Nat.add_assoc, runFor]
    simp only [bind, EStateM.bind, first]

end Reaches

/-- Where a step leads, by what its instruction does. -/
def afterExecute (body : Body) (a : Activation) :
    EStateM.Result Abrupt Machine (Progress × Activation) → EStateM.Result Abrupt Machine Next
  | .ok (.next, b) m => .ok (.continue { b with index := b.index + 1 }) m
  | .ok (.jump l, b) m =>
    match body.positions.find l with
    | .ok index => .ok (.continue { b with index }) m
    | .error _ => .error (.failure (.badCode b.method b.index (.unplacedTarget l))) m
  | .ok (.done v, _) m => .ok (.return v) m
  | .error (.exception r) m =>
    match body.handle a r m with
    | .ok b m => .ok (.continue b) m
    | .error e m => .error e m
  | .error (.failure e) m => .error (.failure e) m

theorem advance_eq {i : Instruction} (hget : body.instructions[a.index]? = some i) :
    body.advance callees a m = body.afterExecute a (Step.execute callees i a m) := by
  simp only [advance, hget, tryCatch, tryCatchThe, MonadExceptOf.tryCatch, EStateM.tryCatch, bind,
    EStateM.bind]
  cases Step.execute callees i a m with
  | ok p m' =>
    obtain ⟨progress, b⟩ := p
    cases progress with
    | next => rfl
    | jump l =>
      simp only [afterExecute]
      cases body.positions.find l <;> rfl
    | done v => rfl
  | error e m' =>
    cases e with
    | failure e => rfl
    | exception r =>
      have hkept : EStateM.Backtrackable.restore m' (EStateM.Backtrackable.save m) = m' := rfl
      simp only [afterExecute, EStateM.bind, hkept]
      cases body.handle a r m' <;> rfl

/-- A step over an instruction that goes on to the next one. -/
theorem advance_next {i : Instruction} (hget : body.instructions[a.index]? = some i)
    (hexec : Step.execute callees i a m = .ok (.next, b) m') :
    body.advance callees a m = .ok (.continue { b with index := b.index + 1 }) m' := by
  rw [advance_eq hget, hexec]
  rfl

/-- A step over an instruction that jumps. -/
theorem advance_jump {i : Instruction} {l : Label} {target : Nat}
    (hget : body.instructions[a.index]? = some i)
    (hexec : Step.execute callees i a m = .ok (.jump l, b) m')
    (htarget : body.positions.find l = .ok target) :
    body.advance callees a m = .ok (.continue { b with index := target }) m' := by
  rw [advance_eq hget, hexec, afterExecute, htarget]

/-- A step that returns. -/
theorem advance_done {i : Instruction} {v : Option Value}
    (hget : body.instructions[a.index]? = some i)
    (hexec : Step.execute callees i a m = .ok (.done v, b) m') :
    body.advance callees a m = .ok (.return v) m' := by
  rw [advance_eq hget, hexec]
  rfl

/-- A straight run of the instructions at the index of an activation. None of them may change the
index before it is over. -/
theorem Reaches.of_straight {is : List Instruction} (hat : body.Has a.index is)
    (h : straight callees is a m = .ok b m')
    (hindex : ∀ i ∈ is, ∀ a b m m', Step.execute callees i a m = .ok (.next, b) m' →
      b.index = a.index) :
    Reaches callees body a m b m' := by
  induction is generalizing a m with
  | nil =>
    rw [straight_nil] at h
    cases h
    exact .refl _ _
  | cons i rest ih =>
    obtain ⟨b', m₁, hexec, hrest⟩ := straight_cons_inv h
    obtain ⟨hget, hat'⟩ := Has.cons_iff.mp hat
    have hsame := hindex i (List.mem_cons_self ..) _ _ _ _ hexec
    refine .step (advance_next hget hexec)
      (ih ?_ hrest fun j hj => hindex j (List.mem_cons_of_mem _ hj))
    show body.Has (b'.index + 1) rest
    rw [hsame]
    exact hat'

end Body

end Resumption
